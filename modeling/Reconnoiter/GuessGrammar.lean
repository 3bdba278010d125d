import Reconnoiter.MetricValue

/-! The grammar of numbers in the comment of `noit_metric_guess_type`, and the words that its scanner
takes for numbers. -/

namespace Reconnoiter

def AllDigits (f : Bytes) : Prop := ∀ c ∈ f, isDigit c = true

instance (f : Bytes) : Decidable (AllDigits f) := inferInstanceAs (Decidable (∀ c ∈ f, isDigit c = true))

inductive NumberForm : Bytes → Prop where
  | case1 {d : UInt8} {r : Bytes} (hd : 49 ≤ d ∧ d ≤ 57) (hr : AllDigits r) : NumberForm (d :: r)
  | case2 {z f : Bytes} (hz : z = [] ∨ z = [48]) (hne : f ≠ []) (hf : AllDigits f) : NumberForm (z ++ 46 :: f)
  | case3 : NumberForm [48]
  | case4 {d : UInt8} {r f : Bytes} (hd : 49 ≤ d ∧ d ≤ 57) (hr : AllDigits r)
      (hne : f ≠ []) (hf : AllDigits f) :
    NumberForm (d :: r ++ 46 :: f)

def ExponentForm (e : UInt8) (x : Bytes) : Prop :=
  ∃ sign f, x = e :: sign :: f ∧ (sign = 45 ∨ sign = 43) ∧ f ≠ [] ∧ AllDigits f

def SignForm (g : Bytes) : Prop := g = [] ∨ g = [45] ∨ g = [43]

def DocumentedWord (w : Bytes) : Prop :=
  ∃ g n x, w = g ++ (n ++ x) ∧ SignForm g ∧ NumberForm n ∧ (x = [] ∨ ExponentForm 101 x)

def IntegerWord (w : Bytes) : Prop := ∃ g n, w = g ++ n ∧ SignForm g ∧ NumberForm n ∧ 46 ∉ n

def IntegerWithExponent (w : Bytes) : Prop :=
  ∃ g n x, w = g ++ (n ++ x) ∧ SignForm g ∧ NumberForm n ∧ 46 ∉ n ∧ ExponentForm 101 x

def CapitalExponent (w : Bytes) : Prop :=
  ∃ g n x, w = g ++ (n ++ x) ∧ SignForm g ∧ NumberForm n ∧ 46 ∈ n ∧ ExponentForm 69 x

def trimBlanks (s : Bytes) : Bytes := (s.dropWhile isSpace).rdropWhile isSpace

def withoutPercent (w : Bytes) : Bytes := if w.getLast? = some 37 then w.dropLast else w

def guessWord (s : Bytes) : Bytes := withoutPercent ((trimBlanks s).takeWhile fun c => !isSpace c)

def afterFirstWord (s : Bytes) : Bytes := (trimBlanks s).dropWhile fun c => !isSpace c

def DocumentedText (s : Bytes) : Prop :=
  (∀ c ∈ afterFirstWord s, isDigit c = false) ∧ DocumentedWord (guessWord s)

def wordValue : Bytes → Int
  | 45 :: r => -(readDigits r : Int)
  | 43 :: r => readDigits r
  | r => readDigits r

def readMemory (r : Bytes) : Nat := r.foldr (fun b v => b.toNat + 256 * v) 0

def WordInRange (w : Bytes) : Prop :=
  if w.head? = some 45 then -2 ^ 63 ≤ wordValue w else wordValue w < 2 ^ 64

structure GuessesAsDocumented (strtod : Strtod) (s : Bytes) : Prop where
  numeric : ((guessType strtod s).1 = .int64 ∨ (guessType strtod s).1 = .uint64 ∨
    (guessType strtod s).1 = .double) ↔
    DocumentedText s
  int64 : (guessType strtod s).1 = .int64 →
    ∃ r, (guessType strtod s).2 = some r ∧ (readMemory r : Int).bmod (2 ^ 64) = wordValue (guessWord s)
  uint64 : (guessType strtod s).1 = .uint64 →
    ∃ r, (guessType strtod s).2 = some r ∧ (readMemory r : Int) = wordValue (guessWord s)

section Scanner

def Leading (a : Bytes) : Prop := a = [48] ∨ ∃ d r, a = d :: r ∧ (49 ≤ d ∧ d ≤ 57) ∧ AllDigits r

theorem isDigit_of_nonzero {d : UInt8} (hd : 49 ≤ d ∧ d ≤ 57) : isDigit d = true := by
  rw [isDigit, Bool.and_eq_true, decide_eq_true_iff, decide_eq_true_iff]
  exact ⟨le_trans (by decide) hd.1, hd.2⟩

theorem nonzero_of_isDigit {d : UInt8} (hd : isDigit d = true) (h48 : d ≠ 48) : 49 ≤ d ∧ d ≤ 57 := by
  rw [isDigit, Bool.and_eq_true, decide_eq_true_iff, decide_eq_true_iff, UInt8.le_iff_toNat_le] at hd
  refine ⟨?_, hd.2⟩
  have hne : d.toNat ≠ 48 := fun h => h48 (UInt8.toNat_inj.mp h)
  have hle : 48 ≤ d.toNat := hd.1
  rw [UInt8.le_iff_toNat_le]
  change 49 ≤ d.toNat
  omega

theorem Leading.allDigits {a : Bytes} (h : Leading a) : AllDigits a := by
  rcases h with rfl | ⟨d, r, rfl, hd, hr⟩
  · intro c hc
    rw [List.mem_singleton.mp hc]
    rfl
  · intro c hc
    rcases List.mem_cons.mp hc with rfl | hc
    · exact isDigit_of_nonzero hd
    · exact hr c hc

theorem Leading.ne_nil {a : Bytes} (h : Leading a) : a ≠ [] := by
  rcases h with rfl | ⟨d, r, rfl, -⟩
  · exact List.cons_ne_nil _ _
  · exact List.cons_ne_nil _ _

theorem not_mem_of_allDigits {f : Bytes} {c : UInt8} (h : AllDigits f) (hc : isDigit c = false) : c ∉ f := by
  intro hmem
  rw [h c hmem] at hc
  cases hc

theorem leading_iff {n : Bytes} : Leading n ↔ NumberForm n ∧ 46 ∉ n := by
  constructor
  · intro h
    refine ⟨?_, not_mem_of_allDigits h.allDigits rfl⟩
    rcases h with rfl | ⟨d, r, rfl, hd, hr⟩
    · exact .case3
    · exact .case1 hd hr
  · rintro ⟨h, hpoint⟩
    cases h with
    | case1 hd hr => exact .inr ⟨_, _, rfl, hd, hr⟩
    | case2 hz hne hf => exact absurd (by simp) hpoint
    | case3 => exact .inl rfl
    | case4 hd hr hne hf => exact absurd (by simp) hpoint

theorem pointed_iff {n : Bytes} :
    NumberForm n ∧ 46 ∈ n ↔ ∃ a f, n = a ++ 46 :: f ∧ (a = [] ∨ Leading a) ∧ f ≠ [] ∧ AllDigits f := by
  constructor
  · rintro ⟨h, hpoint⟩
    have hnone : ∀ {a : Bytes}, Leading a → 46 ∉ a := fun ha => not_mem_of_allDigits ha.allDigits rfl
    cases h with
    | case1 hd hr => exact absurd hpoint (hnone (.inr ⟨_, _, rfl, hd, hr⟩))
    | case2 hz hne hf =>
      refine ⟨_, _, rfl, ?_, hne, hf⟩
      rcases hz with rfl | rfl
      · exact .inl rfl
      · exact .inr (.inl rfl)
    | case3 => exact absurd hpoint (hnone (.inl rfl))
    | case4 hd hr hne hf => exact ⟨_, _, rfl, .inr (.inr ⟨_, _, rfl, hd, hr⟩), hne, hf⟩
  · rintro ⟨a, f, rfl, ha, hne, hf⟩
    refine ⟨?_, by simp⟩
    rcases ha with rfl | rfl | ⟨d, r, rfl, hd, hr⟩
    · exact .case2 (.inl rfl) hne hf
    · exact .case2 (.inr rfl) hne hf
    · exact .case4 hd hr hne hf

theorem dropWhile_allDigits {f : Bytes} (x : Bytes) (hf : AllDigits f)
    (hx : ∀ c ∈ x.head?, isDigit c = false) :
    (f ++ x).dropWhile isDigit = x := by
  induction f with
  | nil =>
    cases x with
    | nil => rfl
    | cons c x => exact List.dropWhile_cons_of_neg (by rw [hx c rfl]; exact Bool.false_ne_true)
  | cons c f ih =>
    rw [List.cons_append, List.dropWhile_cons_of_pos (hf c List.mem_cons_self)]
    exact ih fun d hd => hf d (List.mem_cons_of_mem c hd)

theorem scanExponent_iff {e : UInt8} {r : Bytes} : scanExponent r = true ↔ ExponentForm e (e :: r) := by
  constructor
  · intro h
    match r, h with
    | sign :: d :: r, h =>
      simp only [scanExponent, Bool.and_eq_true, Bool.or_eq_true, beq_iff_eq, List.isEmpty_iff] at h
      obtain ⟨⟨hsign, hd⟩, hr⟩ := h
      refine ⟨sign, d :: r, rfl, hsign, List.cons_ne_nil d r, fun c hc => ?_⟩
      rcases List.mem_cons.mp hc with rfl | hc
      · exact hd
      · exact List.dropWhile_eq_nil_iff.mp hr c hc
  · rintro ⟨sign, f, heq, hsign, hne, hf⟩
    obtain ⟨d, f, rfl⟩ := List.exists_cons_of_ne_nil hne
    obtain rfl := (List.cons.inj heq).2
    simp only [scanExponent, Bool.and_eq_true, Bool.or_eq_true, beq_iff_eq, List.isEmpty_iff]
    exact ⟨⟨hsign, hf d List.mem_cons_self⟩,
      List.dropWhile_eq_nil_iff.mpr fun c hc => hf c (List.mem_cons_of_mem d hc)⟩

def ScannedEnd (x : Bytes) : Prop := x = [] ∨ ExponentForm 101 x ∨ ExponentForm 69 x

theorem ScannedEnd.head {x : Bytes} (h : ScannedEnd x) : ∀ c ∈ x.head?, isDigit c = false := by
  rcases h with rfl | ⟨sign, f, rfl, -⟩ | ⟨sign, f, rfl, -⟩
  · simp
  · rintro c ⟨⟩
    rfl
  · rintro c ⟨⟩
    rfl

theorem scanDecimal_iff {r : Bytes} :
    scanDecimal r = .double ↔ ∃ f x, r = f ++ x ∧ f ≠ [] ∧ AllDigits f ∧ ScannedEnd x := by
  constructor
  · intro h
    cases r with
    | nil => cases h
    | cons d r =>
      rw [scanDecimal] at h
      by_cases hd : isDigit d = true
      · rw [if_pos hd] at h
        refine ⟨d :: r.takeWhile isDigit, r.dropWhile isDigit, ?_, List.cons_ne_nil _ _, ?_, ?_⟩
        · rw [List.cons_append, List.takeWhile_append_dropWhile]
        · intro c hc
          rcases List.mem_cons.mp hc with rfl | hc
          · exact hd
          · exact List.mem_takeWhile_imp hc
        · cases hr : r.dropWhile isDigit with
          | nil => exact .inl rfl
          | cons e x =>
            rw [hr] at h
            dsimp only at h
            split_ifs at h with he
            rw [Bool.and_eq_true, Bool.or_eq_true, beq_iff_eq, beq_iff_eq] at he
            obtain ⟨rfl | rfl, hx⟩ := he
            · exact .inr (.inl (scanExponent_iff.mp hx))
            · exact .inr (.inr (scanExponent_iff.mp hx))
      · rw [if_neg hd] at h
        cases h
  · rintro ⟨f, x, rfl, hne, hf, hx⟩
    obtain ⟨d, f, rfl⟩ := List.exists_cons_of_ne_nil hne
    rw [List.cons_append, scanDecimal, if_pos (hf d List.mem_cons_self),
      dropWhile_allDigits x (fun c hc => hf c (List.mem_cons_of_mem d hc)) hx.head]
    rcases hx with rfl | hx | hx
    · rfl
    · obtain ⟨sign, g, rfl, -⟩ := id hx
      simp [scanExponent_iff.mpr hx]
    · obtain ⟨sign, g, rfl, -⟩ := id hx
      simp [scanExponent_iff.mpr hx]

theorem scanDecimal_ne_int (r : Bytes) : scanDecimal r ≠ .int := by
  cases r with
  | nil => exact Scan.noConfusion
  | cons d r =>
    rw [scanDecimal]
    split_ifs
    · split
      · exact Scan.noConfusion
      · split_ifs <;> exact Scan.noConfusion
    · exact Scan.noConfusion

theorem scanUnsigned_digit {d : UInt8} {r : Bytes} (hd : isDigit d = true) (h48 : d ≠ 48) :
    scanUnsigned (d :: r) = match r.dropWhile isDigit with
      | [] => .int
      | 46 :: r => scanDecimal r
      | _ => .notANumber := by
  have h46 : d ≠ 46 := by
    rintro rfl
    exact absurd hd (by decide)
  rw [scanUnsigned]
  · exact if_pos hd
  · rintro rfl
    exact h46 rfl
  · rintro rfl
    exact h48 rfl

theorem scanUnsigned_not_digit {d : UInt8} {r : Bytes} (hd : isDigit d = false) (h46 : d ≠ 46) :
    scanUnsigned (d :: r) = .notANumber := by
  have h48 : d ≠ 48 := by
    rintro rfl
    exact absurd hd (by decide)
  rw [scanUnsigned]
  · rw [if_neg (by rw [hd]; exact Bool.false_ne_true)]
  · rintro rfl
    exact h46 rfl
  · rintro rfl
    exact h48 rfl

theorem Leading.of_cons {d : UInt8} {r : Bytes} (h : Leading (d :: r)) :
    isDigit d = true ∧ AllDigits r ∧ (d = 48 → r = []) := by
  refine ⟨h.allDigits d List.mem_cons_self, fun c hc =>
    h.allDigits c (List.mem_cons_of_mem d hc), fun h48 => ?_⟩
  rcases h with heq | ⟨e, r', heq, he, -⟩
  · exact (List.cons.inj heq).2
  · rw [← (List.cons.inj heq).1, h48] at he
    exact absurd he.1 (by decide)

theorem Leading.cons {d : UInt8} {r : Bytes} (hd : isDigit d = true) (h48 : d ≠ 48) (hr : AllDigits r) :
    Leading (d :: r) := .inr ⟨d, r, rfl, nonzero_of_isDigit hd h48, hr⟩

theorem pointed_cons {d : UInt8} {r a f : Bytes} (heq : d :: r = a ++ 46 :: f) (ha : a = [] ∨ Leading a) :
    d = 46 ∧ r = f ∨ ∃ a', a = d :: a' ∧ Leading (d :: a') ∧ r = a' ++ 46 :: f := by
  rcases ha with rfl | ha
  · exact .inl (List.cons.inj heq)
  · obtain ⟨e, a', rfl⟩ := List.exists_cons_of_ne_nil ha.ne_nil
    obtain ⟨rfl, hr⟩ := List.cons.inj heq
    exact .inr ⟨a', rfl, ha, hr⟩

theorem scanUnsigned_zero_other {r : Bytes} (hne : r ≠ []) (h46 : ∀ f, r ≠ 46 :: f) :
    scanUnsigned (48 :: r) = .notANumber := by
  rw [scanUnsigned]
  · exact hne
  · exact h46

theorem scanUnsigned_int_iff {s : Bytes} : scanUnsigned s = .int ↔ Leading s := by
  cases s with
  | nil => exact iff_of_false Scan.noConfusion fun h => h.ne_nil rfl
  | cons d r =>
    by_cases hd : isDigit d = true
    · by_cases h48 : d = 48
      · subst h48
        by_cases hr : r = []
        · subst hr
          exact iff_of_true rfl (.inl rfl)
        · refine iff_of_false ?_ fun h => hr (h.of_cons.2.2 rfl)
          by_cases hpoint : ∃ f, r = 46 :: f
          · obtain ⟨f, rfl⟩ := hpoint
            exact scanDecimal_ne_int f
          · rw [scanUnsigned_zero_other hr fun f hf => hpoint ⟨f, hf⟩]
            exact Scan.noConfusion
      · rw [scanUnsigned_digit hd h48]
        constructor
        · intro h
          split at h
          · next hr => exact Leading.cons hd h48 (List.dropWhile_eq_nil_iff.mp hr)
          · exact absurd h (scanDecimal_ne_int _)
          · cases h
        · intro h
          rw [List.dropWhile_eq_nil_iff.mpr h.of_cons.2.1]
    · refine iff_of_false ?_ fun h => hd h.of_cons.1
      by_cases h46 : d = 46
      · subst h46
        exact scanDecimal_ne_int r
      · rw [scanUnsigned_not_digit (by simpa using hd) h46]
        exact Scan.noConfusion

theorem scanUnsigned_double_iff {s : Bytes} :
    scanUnsigned s = .double ↔ ∃ a r, s = a ++ 46 :: r ∧ (a = [] ∨ Leading a) ∧ scanDecimal r = .double := by
  cases s with
  | nil => exact iff_of_false Scan.noConfusion (by simp)
  | cons d r =>
    by_cases hd : isDigit d = true
    · have h46 : d ≠ 46 := by
        rintro rfl
        exact absurd hd (by decide)
      by_cases h48 : d = 48
      · subst h48
        constructor
        · intro h
          by_cases hr : r = []
          · subst hr
            cases h
          · by_cases hpoint : ∃ f, r = 46 :: f
            · obtain ⟨f, rfl⟩ := hpoint
              exact ⟨[48], f, rfl, .inr (.inl rfl), h⟩
            · rw [scanUnsigned_zero_other hr fun f hf => hpoint ⟨f, hf⟩] at h
              cases h
        · rintro ⟨a, f, heq, ha, hf⟩
          rcases pointed_cons heq ha with ⟨h, -⟩ | ⟨a', -, ha', rfl⟩
          · exact absurd h h46
          · rw [ha'.of_cons.2.2 rfl]
            exact hf
      · rw [scanUnsigned_digit hd h48]
        constructor
        · intro h
          split at h
          · cases h
          · next f hr =>
            refine ⟨d :: r.takeWhile isDigit, f, ?_, .inr (Leading.cons hd h48 ?_), h⟩
            · rw [List.cons_append, ← hr, List.takeWhile_append_dropWhile]
            · exact fun c hc => List.mem_takeWhile_imp hc
          · cases h
        · rintro ⟨a, f, heq, ha, hf⟩
          rcases pointed_cons heq ha with ⟨h, -⟩ | ⟨a', -, ha', rfl⟩
          · exact absurd h h46
          · rw [dropWhile_allDigits (46 :: f) ha'.of_cons.2.1 (by rintro c ⟨⟩; rfl)]
            exact hf
    · by_cases h46 : d = 46
      · subst h46
        constructor
        · exact fun h => ⟨[], r, rfl, .inl rfl, h⟩
        · rintro ⟨a, f, heq, ha, hf⟩
          rcases pointed_cons heq ha with ⟨-, rfl⟩ | ⟨a', -, ha', -⟩
          · exact hf
          · exact absurd ha'.of_cons.1 hd
      · rw [scanUnsigned_not_digit (by simpa using hd) h46]
        refine iff_of_false Scan.noConfusion ?_
        rintro ⟨a, f, heq, ha, -⟩
        rcases pointed_cons heq ha with ⟨h, -⟩ | ⟨a', -, ha', -⟩
        · exact h46 h
        · exact hd ha'.of_cons.1

theorem scanNumber_iff {s : Bytes} {k : Scan} (hk : k ≠ .notANumber) :
    scanNumber s = k ↔ ∃ g u, s = g ++ u ∧ SignForm g ∧ scanUnsigned u = k := by
  constructor
  · intro h
    unfold scanNumber at h
    split at h
    · next r => exact ⟨[45], r, rfl, .inr (.inl rfl), h⟩
    · next r => exact ⟨[43], r, rfl, .inr (.inr rfl), h⟩
    · exact ⟨[], s, rfl, .inl rfl, h⟩
  · rintro ⟨g, u, rfl, rfl | rfl | rfl, hu⟩
    · rw [List.nil_append]
      unfold scanNumber
      split
      · rw [scanUnsigned_not_digit rfl (by decide)] at hu
        exact absurd hu.symm hk
      · rw [scanUnsigned_not_digit rfl (by decide)] at hu
        exact absurd hu.symm hk
      · exact hu
    · exact hu
    · exact hu

theorem scanNumber_int_iff {w : Bytes} : scanNumber w = .int ↔ IntegerWord w := by
  rw [scanNumber_iff Scan.noConfusion]
  simp only [scanUnsigned_int_iff, leading_iff, IntegerWord]

theorem scanNumber_double_iff {w : Bytes} : scanNumber w = .double ↔
    ∃ g n x, w = g ++ (n ++ x) ∧ SignForm g ∧ NumberForm n ∧ 46 ∈ n ∧ ScannedEnd x := by
  rw [scanNumber_iff Scan.noConfusion]
  constructor
  · rintro ⟨g, u, rfl, hg, hu⟩
    obtain ⟨a, r, rfl, ha, hr⟩ := scanUnsigned_double_iff.mp hu
    obtain ⟨f, x, rfl, hne, hf, hx⟩ := scanDecimal_iff.mp hr
    obtain ⟨hn, hpoint⟩ := pointed_iff.mpr ⟨a, f, rfl, ha, hne, hf⟩
    exact ⟨g, a ++ 46 :: f, x, by simp, hg, hn, hpoint, hx⟩
  · rintro ⟨g, n, x, rfl, hg, hn, hpoint, hx⟩
    obtain ⟨a, f, rfl, ha, hne, hf⟩ := pointed_iff.mp ⟨hn, hpoint⟩
    refine ⟨g, _, rfl, hg, scanUnsigned_double_iff.mpr ⟨a, f ++ x, by simp, ha, ?_⟩⟩
    exact scanDecimal_iff.mpr ⟨f, x, rfl, hne, hf, hx⟩

end Scanner

section Words

variable {g n x w : Bytes} {c e : UInt8}

theorem SignForm.chars (h : SignForm g) (hc : c ∈ g) : c = 45 ∨ c = 43 := by
  rcases h with rfl | rfl | rfl
  · exact absurd hc List.not_mem_nil
  · exact .inl (List.mem_singleton.mp hc)
  · exact .inr (List.mem_singleton.mp hc)

theorem NumberForm.chars (h : NumberForm n) (hc : c ∈ n) : isDigit c = true ∨ c = 46 := by
  by_cases hpoint : 46 ∈ n
  · obtain ⟨a, f, rfl, ha, -, hf⟩ := pointed_iff.mp ⟨h, hpoint⟩
    rcases List.mem_append.mp hc with hc | hc
    · rcases ha with rfl | ha
      · exact absurd hc List.not_mem_nil
      · exact .inl (ha.allDigits c hc)
    · rcases List.mem_cons.mp hc with rfl | hc
      · exact .inr rfl
      · exact .inl (hf c hc)
  · exact .inl ((leading_iff.mpr ⟨h, hpoint⟩).allDigits c hc)

theorem ExponentForm.chars (h : ExponentForm e x) (hc : c ∈ x) :
    c = e ∨ (c = 45 ∨ c = 43) ∨ isDigit c = true := by
  obtain ⟨sign, f, rfl, hsign, -, hf⟩ := h
  rcases List.mem_cons.mp hc with rfl | hc
  · exact .inl rfl
  rcases List.mem_cons.mp hc with rfl | hc
  · exact .inr (.inl hsign)
  · exact .inr (.inr (hf c hc))

theorem ExponentForm.mem (h : ExponentForm e x) : e ∈ x := by
  obtain ⟨sign, f, rfl, -⟩ := h
  exact List.mem_cons_self

theorem letter_mem (hg : SignForm g) (hn : NumberForm n) (hsign : c ≠ 45 ∧ c ≠ 43) (hpoint : c ≠ 46)
    (hdigit : isDigit c = false) (hc : c ∈ g ++ (n ++ x)) : c ∈ x := by
  rcases List.mem_append.mp hc with hc | hc
  · exact absurd (hg.chars hc) (not_or.mpr hsign)
  rcases List.mem_append.mp hc with hc | hc
  · rcases hn.chars hc with h | h
    · rw [hdigit] at h
      cases h
    · exact absurd h hpoint
  · exact hc

theorem documentedWord_iff : DocumentedWord w ↔ IntegerWord w ∨ IntegerWithExponent w ∨
    ∃ g n x, w = g ++ (n ++ x) ∧ SignForm g ∧ NumberForm n ∧ 46 ∈ n ∧ (x = [] ∨ ExponentForm 101 x) := by
  constructor
  · rintro ⟨g, n, x, rfl, hg, hn, hx⟩
    by_cases hpoint : 46 ∈ n
    · exact .inr (.inr ⟨g, n, x, rfl, hg, hn, hpoint, hx⟩)
    · rcases hx with rfl | hx
      · exact .inl ⟨g, n, by rw [List.append_nil], hg, hn, hpoint⟩
      · exact .inr (.inl ⟨g, n, x, rfl, hg, hn, hpoint, hx⟩)
  · rintro (⟨g, n, rfl, hg, hn, -⟩ | ⟨g, n, x, rfl, hg, hn, -, hx⟩ | ⟨g, n, x, rfl, hg, hn, -, hx⟩)
    · exact ⟨g, n, [], by rw [List.append_nil], hg, hn, .inl rfl⟩
    · exact ⟨g, n, x, rfl, hg, hn, .inr hx⟩
    · exact ⟨g, n, x, rfl, hg, hn, hx⟩

theorem IntegerWithExponent.not_scanned (h : IntegerWithExponent w) : scanNumber w = .notANumber := by
  obtain ⟨g, n, x, rfl, hg, hn, hpoint, hx⟩ := h
  cases hscan : scanNumber (g ++ (n ++ x)) with
  | notANumber => rfl
  | int =>
    -- an integer has no letter
    obtain ⟨g', n', heq, hg', hn', -⟩ := scanNumber_int_iff.mp hscan
    have hmem : 101 ∈ g' ++ (n' ++ []) := by
      rw [List.append_nil, ← heq]
      simp [hx.mem]
    exact absurd (letter_mem hg' hn' (by decide) (by decide) rfl hmem) List.not_mem_nil
  | double =>
    -- a double has a point
    obtain ⟨g', n', x', heq, -, -, hpoint', -⟩ := scanNumber_double_iff.mp hscan
    have hmem : 46 ∈ g ++ (n ++ x) := by
      rw [heq]
      simp [hpoint']
    rcases List.mem_append.mp hmem with h | h
    · exact absurd (hg.chars h) (by decide)
    rcases List.mem_append.mp h with h | h
    · exact absurd h hpoint
    · exact absurd (hx.chars h) (by decide)

theorem CapitalExponent.not_documented (h : CapitalExponent w) : ¬ DocumentedWord w := by
  obtain ⟨g, n, x, rfl, -, -, -, hx⟩ := h
  rintro ⟨g', n', x', heq, hg', hn', hx'⟩
  have hmem : 69 ∈ g' ++ (n' ++ x') := by
    rw [← heq]
    simp [hx.mem]
  have hletter := letter_mem hg' hn' (by decide) (by decide) rfl hmem
  rcases hx' with rfl | hx'
  · exact absurd hletter List.not_mem_nil
  · exact absurd (hx'.chars hletter) (by decide)

theorem scanned_iff_documented :
    (scanNumber w ≠ .notANumber ↔ DocumentedWord w) ↔ ¬ IntegerWithExponent w ∧ ¬ CapitalExponent w := by
  constructor
  · intro h
    refine ⟨fun hexp => ?_, fun hcap => ?_⟩
    · exact h.mpr (documentedWord_iff.mpr (.inr (.inl hexp))) hexp.not_scanned
    · obtain ⟨g, n, x, hw, hg, hn, hpoint, hx⟩ := id hcap
      have hscan := scanNumber_double_iff.mpr ⟨g, n, x, hw, hg, hn, hpoint, .inr (.inr hx)⟩
      exact hcap.not_documented (h.mp (by rw [hscan]; exact Scan.noConfusion))
  · rintro ⟨hexp, hcap⟩
    rw [documentedWord_iff]
    constructor
    · intro h
      cases hscan : scanNumber w with
      | notANumber => exact absurd hscan h
      | int => exact .inl (scanNumber_int_iff.mp hscan)
      | double =>
        obtain ⟨g, n, x, hw, hg, hn, hpoint, hx⟩ := scanNumber_double_iff.mp hscan
        rcases hx with hx | hx | hx
        · exact .inr (.inr ⟨g, n, x, hw, hg, hn, hpoint, .inl hx⟩)
        · exact .inr (.inr ⟨g, n, x, hw, hg, hn, hpoint, .inr hx⟩)
        · exact absurd ⟨g, n, x, hw, hg, hn, hpoint, hx⟩ hcap
    · rintro (h | h | ⟨g, n, x, hw, hg, hn, hpoint, hx⟩)
      · rw [scanNumber_int_iff.mpr h]
        exact Scan.noConfusion
      · exact absurd h hexp
      · rw [scanNumber_double_iff.mpr ⟨g, n, x, hw, hg, hn, hpoint, hx.imp id .inl⟩]
        exact Scan.noConfusion

end Words

section Values

theorem readMemory_littleEndian (size n : Nat) : readMemory (littleEndian size n) = n % 256 ^ size := by
  induction size generalizing n with
  | zero => simp [littleEndian, readMemory, Nat.mod_one]
  | succ size ih =>
    have hcons : littleEndian (size + 1) n = UInt8.ofNat n :: littleEndian size (n / 256) := by
      rw [littleEndian, List.range_succ_eq_map, List.map_cons, List.map_map]
      refine congrArg₂ _ (by simp) (List.map_congr_left fun i _ => ?_)
      rw [Function.comp_apply, Nat.div_div_eq_div_mul, Nat.pow_succ']
    have hread : readMemory (littleEndian (size + 1) n) = n % 256 + 256 * (n / 256 % 256 ^ size) := by
      rw [hcons, ← ih (n / 256), readMemory, List.foldr_cons, UInt8.toNat_ofNat']
      rfl
    rw [hread, Nat.pow_succ', Nat.mod_mul]

theorem bmod_readMemory {z : Int} (hlo : -2 ^ 63 ≤ z) (hhi : z < 2 ^ 63) :
    (readMemory (littleEndian 8 (z % 2 ^ 64).toNat) : Int).bmod (2 ^ 64) = z := by
  rw [readMemory_littleEndian, Nat.mod_eq_of_lt (by omega), Int.toNat_of_nonneg (by omega)]
  have hsub : (2 : Int) ^ 64 = ((2 ^ 64 : Nat) : Int) := by norm_num
  rw [hsub, Int.emod_bmod]
  exact Int.bmod_eq_of_le (by omega) (by omega)

variable {n w : Bytes}

theorem head_not_sign (hn : Leading n) : n.head? ≠ some 45 ∧ n.head? ≠ some 43 := by
  obtain ⟨d, r, rfl⟩ := List.exists_cons_of_ne_nil hn.ne_nil
  obtain ⟨-, h45, h43⟩ := digit_first hn.of_cons.1
  exact ⟨fun h => h45 (Option.some.inj h), fun h => h43 (Option.some.inj h)⟩

theorem wordValue_leading (hn : Leading n) : wordValue n = readDigits n := by
  obtain ⟨h45, h43⟩ := head_not_sign hn
  unfold wordValue
  split
  · exact absurd rfl h45
  · exact absurd rfl h43
  · rfl

theorem strtoul_lt (s : Bytes) : strtoul s < 2 ^ 64 := by
  unfold strtoul
  split
  · split_ifs <;> omega
  · omega
  · omega

theorem strtoul_leading (hn : Leading n) : strtoul n = min (readDigits n) (2 ^ 64 - 1) := by
  obtain ⟨h45, h43⟩ := head_not_sign hn
  obtain ⟨d, r, rfl⟩ := List.exists_cons_of_ne_nil hn.ne_nil
  have hdrop : (d :: r).dropWhile isSpace = d :: r := by
    rw [List.dropWhile_cons_of_neg (by rw [(digit_first hn.of_cons.1).1]; exact Bool.false_ne_true)]
  unfold strtoul
  rw [hdrop]
  split
  · next heq => exact absurd (by rw [heq]; rfl) h45
  · next heq => exact absurd (by rw [heq]; rfl) h43
  · rfl

theorem word_value_iff (h : IntegerWord w) :
    (if w.head? = some 45 then strtoll w = wordValue w else (strtoul w : Int) = wordValue w) ↔
      WordInRange w := by
  obtain ⟨g, n, rfl, hg, hn, hpoint⟩ := h
  have hleading := leading_iff.mpr ⟨hn, hpoint⟩
  unfold WordInRange
  rcases hg with rfl | rfl | rfl
  · rw [List.nil_append, if_neg (head_not_sign hleading).1, if_neg (head_not_sign hleading).1,
      strtoul_leading hleading, wordValue_leading hleading]
    omega
  · have hhead : (45 :: n : Bytes).head? = some 45 := rfl
    rw [List.singleton_append, if_pos hhead, if_pos hhead, strtoll_neg, wordValue]
    omega
  · have hplus : strtoul (43 :: n) = min (readDigits n) (2 ^ 64 - 1) := rfl
    rw [List.singleton_append, if_neg (by simp), if_neg (by simp), hplus, wordValue]
    omega

end Values

section Guess

variable (strtod : Strtod) (s : Bytes)

theorem guessType_eq : guessType strtod s =
    if (afterFirstWord s).any isDigit then (.string, none)
    else match scanNumber (guessWord s) with
      | .int =>
        if (guessWord s).head? = some 45 then
          (.int64, some (littleEndian 8 (strtoll (guessWord s) % 2 ^ 64).toNat))
        else (.uint64, some (littleEndian 8 (strtoul (guessWord s))))
      | .double => (.double, some (strtod.read (guessWord s)))
      | .notANumber => (.string, none) := by
  have htrailer : (splitTrailer s).2.any isDigit = (afterFirstWord s).any isDigit := any_digit_dropWhile _
  unfold guessType
  dsimp only
  rw [htrailer]
  by_cases hsame : (splitTrailer s).1 = guessWord s
  · exact hsame ▸ rfl
  · -- the word is a lone percent sign
    have hlone : (splitTrailer s).1 = [37] ∧ guessWord s = [] := by
      set word := (trimBlanks s).takeWhile fun c => !isSpace c with hword
      have hsplit : (splitTrailer s).1 = if 2 ≤ word.length ∧
        word.getLast? = some 37 then word.dropLast else word :=
        rfl
      have hguess : guessWord s = if word.getLast? = some 37 then word.dropLast else word := rfl
      rw [hsplit, hguess] at hsame ⊢
      by_cases hlast : word.getLast? = some 37
      · by_cases hlong : 2 ≤ word.length
        · rw [if_pos ⟨hlong, hlast⟩, if_pos hlast] at hsame
          exact absurd rfl hsame
        · rw [if_neg fun h => hlong h.1, if_pos hlast]
          obtain ⟨r, hr⟩ := List.getLast?_eq_some_iff.mp hlast
          rw [hr, List.length_append, List.length_singleton] at hlong
          obtain rfl := List.length_eq_zero_iff.mp (show r.length = 0 by omega)
          rw [hr]
          exact ⟨rfl, rfl⟩
      · rw [if_neg fun h => hlast h.2, if_neg hlast] at hsame
        exact absurd rfl hsame
    rw [hlone.1, hlone.2]
    rfl

variable {strtod s}

theorem documentedText_iff (hrest : (afterFirstWord s).any isDigit = false) :
    DocumentedText s ↔ DocumentedWord (guessWord s) := by
  rw [DocumentedText, and_iff_right]
  intro c hc
  exact Bool.eq_false_iff.mpr (List.any_eq_false.mp hrest c hc)

theorem guessed_numeric_iff (hrest : (afterFirstWord s).any isDigit = false) :
    ((guessType strtod s).1 = .int64 ∨ (guessType strtod s).1 = .uint64 ∨ (guessType strtod s).1 = .double) ↔
      scanNumber (guessWord s) ≠ .notANumber := by
  rw [guessType_eq, hrest, if_neg Bool.false_ne_true]
  cases scanNumber (guessWord s) with
  | notANumber => simp
  | double => simp
  | int =>
    dsimp only
    split_ifs <;> simp

theorem guessed_value_iff (hrest : (afterFirstWord s).any isDigit = false) :
    (((guessType strtod s).1 = .int64 → ∃ r, (guessType strtod s).2 = some r ∧
        (readMemory r : Int).bmod (2 ^ 64) = wordValue (guessWord s)) ∧
      ((guessType strtod s).1 = .uint64 → ∃ r, (guessType strtod s).2 = some r ∧
        (readMemory r : Int) = wordValue (guessWord s))) ↔
    (IntegerWord (guessWord s) → WordInRange (guessWord s)) := by
  rw [guessType_eq, hrest, if_neg Bool.false_ne_true]
  set w := guessWord s
  cases hscan : scanNumber w with
  | notANumber =>
    have hnot : ¬ IntegerWord w := by simp [← scanNumber_int_iff, hscan]
    exact iff_of_true ⟨by simp, by simp⟩ fun h => absurd h hnot
  | double =>
    have hnot : ¬ IntegerWord w := by simp [← scanNumber_int_iff, hscan]
    exact iff_of_true ⟨by simp, by simp⟩ fun h => absurd h hnot
  | int =>
    have hint := scanNumber_int_iff.mp hscan
    have hvalue := word_value_iff hint
    dsimp only
    by_cases hneg : w.head? = some 45
    · rw [if_pos hneg] at hvalue ⊢
      obtain ⟨hlo, hhi⟩ := strtoll_range w
      simp only [forall_const, Option.some.injEq, exists_eq_left', bmod_readMemory hlo hhi, reduceCtorEq,
        IsEmpty.forall_iff, and_true, hvalue, hint]
    · rw [if_neg hneg] at hvalue ⊢
      have hmem : readMemory (littleEndian 8 (strtoul w)) = strtoul w := by
        rw [readMemory_littleEndian, Nat.mod_eq_of_lt (lt_of_lt_of_eq (strtoul_lt w) (by norm_num))]
      simp only [forall_const, Option.some.injEq, exists_eq_left', hmem, reduceCtorEq,
        IsEmpty.forall_iff, true_and,
        hvalue, hint]

/-- A text is guessed as the comment says exactly when there is a digit behind its first word, or that
word is none of an integer with an exponent, a decimal number with an exponent after a capital letter
and an integer out of range. -/
theorem guess_type_documented_iff (strtod : Strtod) (s : Bytes) :
    GuessesAsDocumented strtod s ↔ (afterFirstWord s).any isDigit = true ∨
      ¬ IntegerWithExponent (guessWord s) ∧ ¬ CapitalExponent (guessWord s) ∧
        (IntegerWord (guessWord s) → WordInRange (guessWord s)) := by
  cases hrest : (afterFirstWord s).any isDigit with
  | true =>
    have hguess := guessType_eq strtod s
    rw [hrest, if_pos rfl] at hguess
    refine iff_of_true ⟨?_, by simp [hguess], by simp [hguess]⟩ (.inl rfl)
    rw [hguess]
    refine iff_of_false (by simp) fun hdoc => ?_
    obtain ⟨c, hc, hdigit⟩ := List.any_eq_true.mp hrest
    rw [hdoc.1 c hc] at hdigit
    cases hdigit
  | false =>
    rw [or_iff_right Bool.false_ne_true, ← and_assoc, ← scanned_iff_documented, ← documentedText_iff hrest,
      ← guessed_numeric_iff hrest, ← guessed_value_iff hrest]
    exact ⟨fun h => ⟨h.numeric, h.int64, h.uint64⟩, fun h => ⟨h.1, h.2.1, h.2.2⟩⟩

def zeroStrtod : Strtod := ⟨⟨fun _ => List.replicate 8 0⟩, fun _ => false, by simp⟩

theorem integer_exponent_refused :
    (DocumentedText [49, 101, 43, 53] ∧ guessType zeroStrtod [49, 101, 43, 53] = (.string, none)) ∧
    (decimal (2 ^ 64) = [49, 56, 52, 52, 54, 55, 52, 52, 48, 55, 51, 55, 48, 57, 53, 53, 49, 54, 49, 54] ∧
      guessType zeroStrtod [49, 56, 52, 52, 54, 55, 52, 52, 48, 55, 51, 55, 48, 57, 53, 53, 49, 54, 49, 54] =
        (.uint64, some (List.replicate 8 255))) := by
  refine ⟨⟨⟨by decide +kernel, [], [49], [101, 43, 53], by decide +kernel, .inl rfl,
    ?_, .inr ?_⟩, by decide +kernel⟩,
    by decide +kernel, by decide +kernel⟩
  · exact .case1 (by decide) (by decide +kernel)
  · exact ⟨43, [53], rfl, .inr rfl, by decide, by decide +kernel⟩

end Guess

end Reconnoiter
