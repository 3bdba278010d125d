import Reconnoiter.Bytes

/-! Numbers written in decimal, as printf does, and read back, as strtoul, strtoll and
atoi do. -/

namespace Reconnoiter

def digitByte (d : Nat) : UInt8 := .ofNat (48 + d)

def isDigit (c : UInt8) : Bool := 48 ≤ c && c ≤ 57

def decimal (n : Nat) : Bytes := if n = 0 then [48] else (Nat.digits 10 n).reverse.map digitByte

def decimalInt (z : Int) : Bytes := if z < 0 then 45 :: decimal z.natAbs else decimal z.natAbs

/-- `%03u` -/
def decimalPad (n : Nat) : Bytes := List.replicate (3 - (decimal n).length) 48 ++ decimal n

def readDigits (s : Bytes) : Nat :=
  (s.takeWhile isDigit).foldl (fun v c => v * 10 + (c.toNat - 48)) 0

def strtoul (s : Bytes) : Nat :=
  match s.dropWhile isSpace with
  | 45 :: r => if readDigits r < 2 ^ 64 then (2 ^ 64 - readDigits r) % 2 ^ 64 else 2 ^ 64 - 1
  | 43 :: r => min (readDigits r) (2 ^ 64 - 1)
  | r => min (readDigits r) (2 ^ 64 - 1)

def strtoll (s : Bytes) : Int :=
  match s.dropWhile isSpace with
  | 45 :: r => max (-(readDigits r : Int)) (-2 ^ 63)
  | 43 :: r => min (readDigits r) (2 ^ 63 - 1)
  | r => min (readDigits r) (2 ^ 63 - 1)

def atoi (s : Bytes) : Int := (strtoll s).bmod (2 ^ 32)

theorem toNat_digitByte {d : Nat} (h : d < 10) : (digitByte d).toNat = 48 + d := by
  rw [digitByte, UInt8.toNat_ofNat']
  omega

theorem isDigit_digitByte {d : Nat} (h : d < 10) : isDigit (digitByte d) = true := by
  rw [isDigit, Bool.and_eq_true, decide_eq_true_iff, decide_eq_true_iff, UInt8.le_iff_toNat_le,
    UInt8.le_iff_toNat_le, toNat_digitByte h]
  exact ⟨Nat.le_add_right 48 d, by change 48 + d ≤ 57; omega⟩

theorem isDigit_of_mem_decimal {n : Nat} {c : UInt8} (h : c ∈ decimal n) : isDigit c = true := by
  unfold decimal at h
  split_ifs at h with hn
  · rw [List.mem_singleton.mp h]
    rfl
  · obtain ⟨d, hd, rfl⟩ := List.mem_map.mp h
    exact isDigit_digitByte (Nat.digits_lt_base (by norm_num) (List.mem_reverse.mp hd))

theorem isDigit_of_mem_decimalPad {n : Nat} {c : UInt8} (h : c ∈ decimalPad n) : isDigit c = true := by
  rcases List.mem_append.mp h with h | h
  · rw [List.eq_of_mem_replicate h]
    rfl
  · exact isDigit_of_mem_decimal h

theorem not_mem_decimal {n : Nat} {c : UInt8} (hc : isDigit c = false) : c ∉ decimal n := by
  intro h
  rw [isDigit_of_mem_decimal h] at hc
  exact Bool.noConfusion hc

theorem not_mem_decimalPad {n : Nat} {c : UInt8} (hc : isDigit c = false) : c ∉ decimalPad n := by
  intro h
  rw [isDigit_of_mem_decimalPad h] at hc
  exact Bool.noConfusion hc

theorem not_mem_decimalInt {z : Int} {c : UInt8} (hc : isDigit c = false) (hsign : c ≠ 45) :
    c ∉ decimalInt z := by
  unfold decimalInt
  split_ifs
  · exact List.not_mem_cons_of_ne_of_not_mem hsign (not_mem_decimal hc)
  · exact not_mem_decimal hc

theorem decimal_ne_nil (n : Nat) : decimal n ≠ [] := by
  unfold decimal
  split_ifs with hn
  · exact List.cons_ne_nil _ _
  · simpa [Nat.digits_eq_nil_iff_eq_zero] using hn

theorem foldr_digits {l : List Nat} (h : ∀ d ∈ l, d < 10) :
    (l.map digitByte).foldr (fun c v => v * 10 + (c.toNat - 48)) 0 = Nat.ofDigits 10 l := by
  induction l with
  | nil => rfl
  | cons d l ih =>
    have hd : (digitByte d).toNat - 48 = d := by
      rw [toNat_digitByte (h d List.mem_cons_self)]
      omega
    have hl := ih (fun e he => h e (List.mem_cons_of_mem d he))
    rw [List.map_cons, List.foldr_cons, hl, hd, Nat.ofDigits_cons]
    ring

theorem readDigits_decimal (n : Nat) : readDigits (decimal n) = n := by
  have hall : (decimal n).takeWhile isDigit = decimal n :=
    List.takeWhile_eq_self_iff.mpr (fun c hc => isDigit_of_mem_decimal hc)
  rw [readDigits, hall]
  unfold decimal
  split_ifs with hn
  · rw [hn]
    rfl
  · have hlt : ∀ d ∈ Nat.digits 10 n, d < 10 := fun d hd => Nat.digits_lt_base (by norm_num) hd
    rw [List.map_reverse, List.foldl_reverse, foldr_digits hlt, Nat.ofDigits_digits]

theorem strtoul_neg {r : Bytes} (h : readDigits r < 2 ^ 64) :
    strtoul (45 :: r) = (2 ^ 64 - readDigits r) % 2 ^ 64 := by
  have hdrop : (45 :: r).dropWhile isSpace = 45 :: r := by simp [isSpace]
  simp only [strtoul, hdrop]
  rw [if_pos h]

theorem digit_first {c : UInt8} (hc : isDigit c = true) : isSpace c = false ∧ c ≠ 45 ∧ c ≠ 43 := by
  refine ⟨?_, ?_, ?_⟩
  · rw [isDigit, Bool.and_eq_true, decide_eq_true_iff, decide_eq_true_iff] at hc
    simp only [isSpace, Bool.or_eq_false_iff, Bool.and_eq_false_iff,
      decide_eq_false_iff_not, beq_eq_false_iff_ne]
    have h13 : ¬ c ≤ 13 := fun h13 => absurd (hc.1.trans h13) (by decide)
    exact ⟨fun h32 => absurd (h32 ▸ hc.1) (by decide), .inr h13⟩
  · rintro rfl
    exact absurd hc (by decide)
  · rintro rfl
    exact absurd hc (by decide)

theorem strtoul_digits {s : Bytes} (hne : s ≠ []) (hs : ∀ c ∈ s, isDigit c = true)
    (h : readDigits s < 2 ^ 64) : strtoul s = readDigits s := by
  obtain ⟨c, r, rfl⟩ := List.exists_cons_of_ne_nil hne
  obtain ⟨hspace, h45, h43⟩ := digit_first (hs c List.mem_cons_self)
  have hdrop : (c :: r).dropWhile isSpace = c :: r := by simp [hspace]
  unfold strtoul
  rw [hdrop]
  split
  · next heq => exact absurd (List.cons.inj heq).1 h45
  · next heq => exact absurd (List.cons.inj heq).1 h43
  · exact Nat.min_eq_left (by omega)

theorem strtoll_neg (r : Bytes) : strtoll (45 :: r) = max (-(readDigits r : Int)) (-2 ^ 63) := by
  have hdrop : (45 :: r).dropWhile isSpace = 45 :: r := by simp [isSpace]
  simp only [strtoll, hdrop]

theorem strtoll_digits {s : Bytes} (hne : s ≠ []) (hs : ∀ c ∈ s, isDigit c = true) :
    strtoll s = min (readDigits s : Int) (2 ^ 63 - 1) := by
  obtain ⟨c, r, rfl⟩ := List.exists_cons_of_ne_nil hne
  obtain ⟨hspace, h45, h43⟩ := digit_first (hs c List.mem_cons_self)
  have hdrop : (c :: r).dropWhile isSpace = c :: r := by simp [hspace]
  unfold strtoll
  rw [hdrop]
  split
  · next heq => exact absurd (List.cons.inj heq).1 h45
  · next heq => exact absurd (List.cons.inj heq).1 h43
  · rfl

theorem strtoll_decimal (n : Nat) : strtoll (decimal n) = min (n : Int) (2 ^ 63 - 1) := by
  rw [strtoll_digits (decimal_ne_nil n) (fun c hc => isDigit_of_mem_decimal hc), readDigits_decimal]

theorem strtoll_decimalInt {z : Int} (hlo : -2 ^ 63 ≤ z) (hhi : z < 2 ^ 63) : strtoll (decimalInt z) = z := by
  unfold decimalInt
  by_cases hz : z < 0
  · rw [if_pos hz, strtoll_neg, readDigits_decimal]
    omega
  · rw [if_neg hz, strtoll_decimal]
    omega

theorem atoi_decimalInt {z : Int} (hlo : -2 ^ 31 ≤ z) (hhi : z < 2 ^ 31) : atoi (decimalInt z) = z := by
  rw [atoi, strtoll_decimalInt (by omega) (by omega)]
  exact Int.bmod_eq_of_le (by omega) (by omega)

theorem readDigits_append (a b : Bytes) {c : UInt8} (hc : isDigit c = false) :
    readDigits (a ++ c :: b) = readDigits a := by
  have htake : (a ++ c :: b).takeWhile isDigit = a.takeWhile isDigit := by
    induction a with
    | nil => simp [hc]
    | cons x a ih =>
      rw [List.cons_append, List.takeWhile_cons, List.takeWhile_cons, ih]
  rw [readDigits, readDigits, htake]

theorem strtoll_append {a : Bytes} (b : Bytes) {c : UInt8} (ha : a.dropWhile isSpace ≠ [])
    (hc : isDigit c = false) : strtoll (a ++ c :: b) = strtoll a := by
  have hdrop : (a ++ c :: b).dropWhile isSpace = a.dropWhile isSpace ++ c :: b := by
    rw [List.dropWhile_append, if_neg (by rwa [List.isEmpty_iff])]
  obtain ⟨x, r, hx⟩ := List.exists_cons_of_ne_nil ha
  have hr := readDigits_append r b hc
  have hxr := readDigits_append (x :: r) b hc
  unfold strtoll
  rw [hdrop, hx, List.cons_append]
  by_cases h45 : x = 45
  · subst h45
    simp only [hr]
  by_cases h43 : x = 43
  · subst h43
    simp only [hr]
  · rw [List.cons_append] at hxr
    split <;> simp_all

theorem strtoll_range (s : Bytes) : -2 ^ 63 ≤ strtoll s ∧ strtoll s < 2 ^ 63 := by
  unfold strtoll
  split <;> omega

theorem dropWhile_of_strtoll_ne_zero {s : Bytes} (h : strtoll s ≠ 0) : s.dropWhile isSpace ≠ [] := by
  intro hnil
  apply h
  unfold strtoll
  rw [hnil]
  rfl

theorem dropWhile_decimal (n : Nat) : (decimal n).dropWhile isSpace ≠ [] := by
  obtain ⟨c, r, hcr⟩ := List.exists_cons_of_ne_nil (decimal_ne_nil n)
  have hc : isDigit c = true := isDigit_of_mem_decimal (by rw [hcr]; exact List.mem_cons_self)
  rw [hcr, List.dropWhile_cons_of_neg (by rw [(digit_first hc).1]; exact Bool.false_ne_true)]
  exact List.cons_ne_nil _ _

theorem length_decimal_le {n k : Nat} (hk : 0 < k) : (decimal n).length ≤ k ↔ n < 10 ^ k := by
  unfold decimal
  split_ifs with hn
  · subst hn
    exact iff_of_true hk (Nat.pow_pos (by norm_num))
  · rw [List.length_map, List.length_reverse]
    exact Nat.digits_length_le_iff (by norm_num) n

theorem foldl_digits_lt {s : Bytes} (hs : ∀ c ∈ s, isDigit c = true) (v : Nat) :
    s.foldl (fun v c => v * 10 + (c.toNat - 48)) v < (v + 1) * 10 ^ s.length := by
  induction s generalizing v with
  | nil => simp
  | cons c s ih =>
    have hc := hs c List.mem_cons_self
    rw [isDigit, Bool.and_eq_true, decide_eq_true_iff, decide_eq_true_iff, UInt8.le_iff_toNat_le,
      UInt8.le_iff_toNat_le] at hc
    have hd : c.toNat - 48 ≤ 9 := by
      have h57 : c.toNat ≤ 57 := hc.2
      omega
    have hrest := ih (fun e he => hs e (List.mem_cons_of_mem c he)) (v * 10 + (c.toNat - 48))
    calc s.foldl (fun v c => v * 10 + (c.toNat - 48)) (v * 10 + (c.toNat - 48))
        < (v * 10 + (c.toNat - 48) + 1) * 10 ^ s.length := hrest
      _ ≤ ((v + 1) * 10) * 10 ^ s.length := Nat.mul_le_mul_right _ (by omega)
      _ = (v + 1) * 10 ^ (s.length + 1) := by ring

theorem readDigits_lt {s : Bytes} (hs : ∀ c ∈ s, isDigit c = true) : readDigits s < 10 ^ s.length := by
  have hall : s.takeWhile isDigit = s := List.takeWhile_eq_self_iff.mpr hs
  rw [readDigits, hall]
  simpa using foldl_digits_lt hs 0

theorem readDigits_take_lt (n k : Nat) : readDigits ((decimal n).take k) < 10 ^ k := by
  have hdigits : ∀ c ∈ (decimal n).take k, isDigit c = true :=
    fun c hc => isDigit_of_mem_decimal (List.mem_of_mem_take hc)
  exact (readDigits_lt hdigits).trans_le (Nat.pow_le_pow_right (by decide) (List.length_take_le _ _))

theorem readDigits_take_of_lt {n k : Nat} (h : n < 10 ^ k) : readDigits ((decimal n).take k) = n := by
  rcases Nat.eq_zero_or_pos k with rfl | hk
  · rw [List.take_zero, Nat.lt_one_iff.mp h]
    rfl
  · rw [List.take_of_length_le ((length_decimal_le hk).mpr h), readDigits_decimal]

theorem strtoll_take_decimal (n : Nat) {k : Nat} (hk : 0 < k) :
    strtoll ((decimal n).take k) = min (readDigits ((decimal n).take k) : Int) (2 ^ 63 - 1) := by
  have hne : (decimal n).take k ≠ [] := by
    rw [Ne, List.take_eq_nil_iff, not_or]
    exact ⟨hk.ne', decimal_ne_nil n⟩
  exact strtoll_digits hne fun c hc => isDigit_of_mem_decimal (List.mem_of_mem_take hc)

theorem strtoll_take_decimalInt {z : Int} {k : Nat} (hk : 0 < k) (hz : z < 2 ^ 63) :
    max (strtoll ((decimalInt z).take k)) 0 = max z 0 ↔ z < 10 ^ k := by
  unfold decimalInt
  by_cases hneg : z < 0
  · obtain ⟨k, rfl⟩ := Nat.exists_eq_succ_of_ne_zero hk.ne'
    have hlt : z < 10 ^ (k + 1) := hneg.trans (by positivity)
    rw [if_pos hneg, List.take_succ_cons, strtoll_neg]
    exact iff_of_true (by omega) hlt
  · obtain ⟨n, rfl⟩ := Int.eq_ofNat_of_zero_le (not_lt.mp hneg)
    rw [if_neg hneg, Int.natAbs_natCast, strtoll_take_decimal n hk]
    by_cases hn : n < 10 ^ k
    · rw [readDigits_take_of_lt hn]
      exact iff_of_true (by omega) (by exact_mod_cast hn)
    · have hlt := readDigits_take_lt n k
      exact iff_of_false (by omega) (by exact_mod_cast hn)

theorem strtoll_take_eq_iff {z : Int} {k : Nat} (hk : 10 ^ (k + 1) < 2 ^ 63) :
    strtoll ((decimalInt z).take (k + 1)) = z ↔ -10 ^ k < z ∧ z < 10 ^ (k + 1) := by
  have hpow : 10 ^ k < 10 ^ (k + 1) := Nat.pow_lt_pow_right (by decide) (Nat.lt_succ_self k)
  unfold decimalInt
  by_cases hneg : z < 0
  · obtain ⟨n, rfl⟩ := Int.eq_negSucc_of_lt_zero hneg
    have hcast : Int.negSucc n = -((n + 1 : Nat) : Int) := rfl
    rw [if_pos hneg, List.take_succ_cons, strtoll_neg, Int.natAbs_negSucc, hcast]
    by_cases hn : n + 1 < 10 ^ k
    · rw [readDigits_take_of_lt hn]
      exact iff_of_true (by omega) (by zify at hn hpow; omega)
    · have hlt := readDigits_take_lt n.succ k
      exact iff_of_false (by omega) (by zify at hn; omega)
  · obtain ⟨n, rfl⟩ := Int.eq_ofNat_of_zero_le (not_lt.mp hneg)
    rw [if_neg hneg, Int.natAbs_natCast, strtoll_take_decimal n (show 0 < k + 1 from Nat.succ_pos k)]
    by_cases hn : n < 10 ^ (k + 1)
    · rw [readDigits_take_of_lt hn]
      exact iff_of_true (by omega) (by zify at hn hpow; omega)
    · have hlt := readDigits_take_lt n (k + 1)
      exact iff_of_false (by omega) (by zify at hn; omega)

theorem strtoul_decimalInt_bmod (n : Nat) :
    strtoul (decimalInt ((n : Int).bmod (2 ^ 32))) % 2 ^ 32 = n % 2 ^ 32 := by
  have hb : (n : Int).bmod (2 ^ 32) = if (n : Int) % 2 ^ 32 < (2 ^ 32 + 1) / 2 then (n : Int) % 2 ^ 32
      else (n : Int) % 2 ^ 32 - 2 ^ 32 := rfl
  set z := (n : Int).bmod (2 ^ 32) with hz
  have hmod : (n : Int) % 2 ^ 32 = ((n % 2 ^ 32 : Nat) : Int) := by push_cast; rfl
  have hlt : n % 2 ^ 32 < 2 ^ 32 := Nat.mod_lt _ (by norm_num)
  rw [hmod] at hb
  unfold decimalInt
  by_cases hneg : z < 0
  · have hv : z.natAbs = 2 ^ 32 - n % 2 ^ 32 := by
      split_ifs at hb <;> omega
    have hpos : 0 < n % 2 ^ 32 := by
      split_ifs at hb <;> omega
    rw [if_pos hneg, strtoul_neg (by rw [readDigits_decimal, hv]; omega), readDigits_decimal, hv]
    omega
  · have hv : z.natAbs = n % 2 ^ 32 := by
      split_ifs at hb <;> omega
    rw [if_neg hneg, strtoul_digits (decimal_ne_nil _) (fun c hc => isDigit_of_mem_decimal hc)
      (by rw [readDigits_decimal, hv]; omega), readDigits_decimal, hv, Nat.mod_mod]

theorem digit_ne_tab {c : UInt8} (hc : isDigit c = true) : c ≠ 9 := fun h => by rw [h] at hc; cases hc

theorem tab_not_mem_time {sec msec : Bytes} (hsecs : ∀ c ∈ sec, isDigit c = true)
    (hmsecs : ∀ c ∈ msec, isDigit c = true) : 9 ∉ sec ++ 46 :: msec := by
  intro h
  rcases List.mem_append.mp h with h | h
  · exact digit_ne_tab (hsecs 9 h) rfl
  · rcases List.mem_cons.mp h with h | h
    · cases h
    · exact digit_ne_tab (hmsecs 9 h) rfl

theorem readDigits_decimalPad (n : Nat) : readDigits (decimalPad n) = n := by
  have hzeros : ∀ k (s : Bytes), readDigits (List.replicate k 48 ++ s) = readDigits s := by
    intro k s
    induction k with
    | zero => rfl
    | succ k ih =>
      rw [List.replicate_succ, List.cons_append, ← ih]
      rfl
  rw [decimalPad, hzeros, readDigits_decimal]

theorem length_decimalPad {n : Nat} (h : n < 1000) : (decimalPad n).length = 3 := by
  have hlen : (decimal n).length ≤ 3 := (length_decimal_le (by decide)).mpr h
  rw [decimalPad, List.length_append, List.length_replicate]
  omega

end Reconnoiter
