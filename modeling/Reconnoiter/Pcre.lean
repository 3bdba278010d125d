import Reconnoiter.Bytes

/-! Regular expressions as `pcre` reads them without options: what is assumed of those made of
single bytes, and a matcher of which it holds. -/

namespace Reconnoiter

def alnumByte (c : UInt8) : Bool :=
  48 ≤ c && c ≤ 57 || 65 ≤ c && c ≤ 90 || 97 ≤ c && c ≤ 122

def metaBytes : Bytes := [0, 123, 125, 40, 41, 91, 93, 46, 42, 63, 43, 94, 36, 92, 124]

/-- The parts `c`, `\c`, `.`, `.*`, `[^.]{1}` and `[^.]*`. -/
inductive RegexAtom where
  | lit (c : UInt8)
  | escaped (c : UInt8)
  | any
  | anyRun
  | nonDot
  | nonDotRun
  deriving DecidableEq

namespace RegexAtom

def text : RegexAtom → Bytes
  | lit c => [c]
  | escaped c => [92, c]
  | any => [46]
  | anyRun => [46, 42]
  | nonDot => [91, 94, 46, 93, 123, 49, 125]
  | nonDotRun => [91, 94, 46, 93, 42]

def Valid : RegexAtom → Prop
  | lit c => c ∉ metaBytes
  | escaped c => c ≠ 0 ∧ alnumByte c = false
  | _ => True

def ok : RegexAtom → UInt8 → Bool
  | lit c, x => x == c
  | escaped c, x => x == c
  | any, x => x != 10
  | anyRun, x => x != 10
  | nonDot, x => x != 46
  | nonDotRun, x => x != 46

def runs : RegexAtom → Bool
  | anyRun => true
  | nonDotRun => true
  | _ => false

def byte : RegexAtom → Option UInt8
  | lit c => some c
  | escaped c => some c
  | _ => none

end RegexAtom

def regexAtomsText (atoms : List RegexAtom) : Bytes := atoms.flatMap RegexAtom.text

@[simp] theorem regexAtomsText_cons (a : RegexAtom) (atoms : List RegexAtom) :
    regexAtomsText (a :: atoms) = a.text ++ regexAtomsText atoms := rfl

def anchoredRegex (atoms : List RegexAtom) : Bytes := 94 :: (regexAtomsText atoms ++ [36])

inductive Takes : List RegexAtom → Bytes → Prop
  | nil : Takes [] []
  | one {a : RegexAtom} {atoms : List RegexAtom} {x : UInt8} {s : Bytes} (ha : a.runs = false)
      (hx : a.ok x = true) (h : Takes atoms s) : Takes (a :: atoms) (x :: s)
  | run {a : RegexAtom} {atoms : List RegexAtom} {run s : Bytes} (ha : a.runs = true)
      (hrun : ∀ x ∈ run, a.ok x = true) (h : Takes atoms s) : Takes (a :: atoms) (run ++ s)

def TakesLine (atoms : List RegexAtom) (s : Bytes) : Prop :=
  Takes atoms s ∨ ∃ t, s = t ++ [10] ∧ Takes atoms t

def zeroRepeat (s : Bytes) : Bool :=
  match s with
  | 123 :: s =>
    let least := s.takeWhile (· == 48)
    let behind := s.drop least.length
    let most := (behind.drop 1).takeWhile fun c => 48 ≤ c && c ≤ 57
    least ≠ [] && (behind.head? == some 125 ||
      behind.head? == some 44 && (behind.drop (1 + most.length)).head? == some 125)
  | _ => false

/-- What the library passes over: a comment, an end of quotation with no beginning, an empty quotation.
A quantifier behind it is one of the literal before it, as in `^fo(?#c)?bar`. -/
def passedOver (s : Bytes) : Bool :=
  [40, 63, 35].isPrefixOf s || [92, 69].isPrefixOf s || [92, 81, 92, 69].isPrefixOf s

def mayDrop (s : Bytes) : Bool :=
  s.head? == some 63 || s.head? == some 42 || zeroRepeat s || passedOver s

/-- The library: `compile` is the match function of a regular expression, `alternates` says that
it has more than one alternative outside parentheses. -/
structure Pcre where
  compile : Bytes → Option (Bytes → Bool)
  alternates : Bytes → Bool
  one_alternative : ∀ re, 124 ∉ re → alternates re = false
  bar_alternates : ∀ (lits : List RegexAtom) (rest : Bytes), (∀ a ∈ lits, a.Valid ∧ a.byte.isSome) →
    alternates (94 :: (regexAtomsText lits ++ 124 :: rest)) = true
  anchored : ∀ atoms : List RegexAtom, (∀ a ∈ atoms, a.Valid) →
    ∃ exec, compile (anchoredRegex atoms) = some exec ∧
    ∀ s, exec s = true ↔ TakesLine atoms s
  starts : ∀ (lits : List RegexAtom) (rest s : Bytes) (exec : Bytes → Bool),
    (∀ a ∈ lits, a.Valid ∧ a.byte.isSome) → compile (94 :: (regexAtomsText lits ++ rest)) = some exec →
    alternates (94 :: (regexAtomsText lits ++ rest)) = false → mayDrop rest = false → exec s = true →
    lits.filterMap RegexAtom.byte <+: s

/-! A matcher for the expressions made of these parts. -/

def someEnd (ok : UInt8 → Bool) (passes : Bytes → Bool) : Bytes → Bool
  | [] => passes []
  | x :: s => passes (x :: s) || ok x && someEnd ok passes s

def headThen (ok : UInt8 → Bool) (passes : Bytes → Bool) : Bytes → Bool
  | [] => false
  | x :: s => ok x && passes s

def takeAtoms : List RegexAtom → Bytes → Bool
  | [], s => s == [] || s == [10]
  | a :: atoms, s => if a.runs then someEnd a.ok (takeAtoms atoms) s else headThen a.ok (takeAtoms atoms) s

def readAtom : Bytes → Option (RegexAtom × Bytes)
  | [] => none
  | c :: s =>
    if c = 92 then s.head?.bind fun d => if d ≠ 0 ∧
      alnumByte d = false then some (.escaped d, s.drop 1) else none
    else if c = 46 then if s.head? = some 42 then some (.anyRun, s.drop 1) else some (.any, s)
    else if c = 91 then
      if [94, 46, 93, 42].isPrefixOf s then some (.nonDotRun, s.drop 4)
      else if [94, 46, 93, 123, 49, 125].isPrefixOf s then some (.nonDot, s.drop 6)
      else none
    else if c ∈ metaBytes then none
    else some (.lit c, s)

def readAtoms : Nat → Bytes → Option (List RegexAtom)
  | 0, _ => none
  | fuel + 1, s =>
    if s = [36] then some [] else (readAtom s).bind fun (a, s) => (readAtoms fuel s).map (a :: ·)

def takesCompile : Bytes → Option (Bytes → Bool)
  | [] => none
  | c :: s => if c = 94 then (readAtoms (s.length + 1) s).map takeAtoms else none

theorem readAtom_literal {a : RegexAtom} {s : Bytes} (h : a.Valid) (hlit : a.byte.isSome) :
    readAtom (a.text ++ s) = some (a, s) := by
  cases a with
  | lit c =>
    have hc : c ≠ 92 ∧ c ≠ 46 ∧ c ≠ 91 := by
      refine ⟨?_, ?_, ?_⟩ <;> rintro rfl <;> exact h (by decide)
    simp only [RegexAtom.text, List.singleton_append, readAtom]
    rw [if_neg hc.1, if_neg hc.2.1, if_neg hc.2.2, if_neg h]
  | escaped c => simp [RegexAtom.text, readAtom, h.1, h.2]
  | any => cases hlit
  | anyRun => cases hlit
  | nonDot => cases hlit
  | nonDotRun => cases hlit

theorem readAtom_text {a : RegexAtom} {s : Bytes} (h : a.Valid) (hs : s.head? ≠ some 42) :
    readAtom (a.text ++ s) = some (a, s) := by
  cases a with
  | lit c => exact readAtom_literal h rfl
  | escaped c => exact readAtom_literal h rfl
  | any => simp [RegexAtom.text, readAtom, hs]
  | anyRun => simp [RegexAtom.text, readAtom]
  | nonDot => simp [RegexAtom.text, readAtom]
  | nonDotRun => simp [RegexAtom.text, readAtom]

theorem RegexAtom.head_text {a : RegexAtom} {s : Bytes} (h : a.Valid) :
    (a.text ++ s).head? ≠ some 42 ∧ a.text ++ s ≠ [36] := by
  cases a with
  | lit c =>
    refine ⟨?_, ?_⟩
    · intro hc
      cases hc
      exact h (by decide)
    · intro hc
      cases hc
      exact h (by decide)
  | escaped c => simp [text]
  | any => simp [text]
  | anyRun => simp [text]
  | nonDot => simp [text]
  | nonDotRun => simp [text]

theorem readAtoms_text {atoms : List RegexAtom} {fuel : Nat} (h : ∀ a ∈ atoms, a.Valid)
    (hfuel : atoms.length < fuel) :
    readAtoms fuel (regexAtomsText atoms ++ [36]) = some atoms := by
  induction atoms generalizing fuel with
  | nil =>
    obtain ⟨fuel, rfl⟩ : ∃ n, fuel = n + 1 := ⟨fuel - 1, by simp at hfuel; omega⟩
    rfl
  | cons a atoms ih =>
    obtain ⟨fuel, rfl⟩ : ∃ n, fuel = n + 1 := ⟨fuel - 1, by simp at hfuel; omega⟩
    have ha : a.Valid := h a (by simp)
    have hatoms : ∀ b ∈ atoms, b.Valid := fun b hb => h b (by simp [hb])
    have hhead : (regexAtomsText atoms ++ [36]).head? ≠ some 42 := by
      cases atoms with
      | nil => simp [regexAtomsText]
      | cons b atoms =>
        rw [regexAtomsText_cons, List.append_assoc]
        exact (RegexAtom.head_text (hatoms b (by simp))).1
    rw [regexAtomsText_cons, List.append_assoc, readAtoms, if_neg (RegexAtom.head_text ha).2,
      readAtom_text ha hhead, Option.bind_some]
    dsimp only
    rw [ih hatoms (by simpa using hfuel), Option.map_some]

theorem readAtoms_literals {lits atoms : List RegexAtom} {rest : Bytes} {fuel : Nat}
    (h : ∀ a ∈ lits, a.Valid ∧ a.byte.isSome)
    (hread : readAtoms fuel (regexAtomsText lits ++ rest) = some atoms) :
    ∃ more, atoms = lits ++ more := by
  induction lits generalizing fuel atoms with
  | nil => exact ⟨atoms, rfl⟩
  | cons a lits ih =>
    have ha := h a (by simp)
    cases fuel with
    | zero => cases hread
    | succ fuel =>
      rw [regexAtomsText_cons, List.append_assoc, readAtoms, if_neg (RegexAtom.head_text ha.1).2,
        readAtom_literal ha.1 ha.2, Option.bind_some] at hread
      obtain ⟨atoms', hrest, rfl⟩ := Option.map_eq_some_iff.mp hread
      obtain ⟨more, rfl⟩ := ih (fun b hb => h b (by simp [hb])) hrest
      exact ⟨more, rfl⟩

theorem someEnd_eq_true {ok : UInt8 → Bool} {passes : Bytes → Bool} {s : Bytes} :
    someEnd ok passes s = true ↔ ∃ run t, s = run ++ t ∧ (∀ x ∈ run, ok x = true) ∧ passes t = true := by
  induction s with
  | nil => simp [someEnd]
  | cons x s ih =>
    rw [someEnd, Bool.or_eq_true, Bool.and_eq_true, ih]
    constructor
    · rintro (h | ⟨hx, run, t, rfl, hrun, ht⟩)
      · exact ⟨[], x :: s, rfl, by simp, h⟩
      · exact ⟨x :: run, t, rfl, by simpa [hx] using hrun, ht⟩
    · rintro ⟨run, t, hs, hrun, ht⟩
      cases run with
      | nil =>
        left
        rw [hs]
        exact ht
      | cons y run =>
        rw [List.cons_append, List.cons.injEq] at hs
        obtain ⟨rfl, rfl⟩ := hs
        rw [List.forall_mem_cons] at hrun
        exact Or.inr ⟨hrun.1, run, t, rfl, hrun.2, ht⟩

section Takes

variable {a : RegexAtom} {atoms lits : List RegexAtom} {s : Bytes}

theorem takes_one (ha : a.runs = false) :
    Takes (a :: atoms) s ↔ ∃ x t, s = x :: t ∧ a.ok x = true ∧ Takes atoms t := by
  constructor
  · intro h
    cases h with
    | one _ hx h => exact ⟨_, _, rfl, hx, h⟩
    | run ha' => simp [ha] at ha'
  · rintro ⟨x, t, rfl, hx, h⟩
    exact .one ha hx h

theorem takes_run (ha : a.runs = true) :
    Takes (a :: atoms) s ↔ ∃ run t, s = run ++ t ∧ (∀ x ∈ run, a.ok x = true) ∧ Takes atoms t := by
  constructor
  · intro h
    cases h with
    | one ha' => simp [ha] at ha'
    | run _ hrun h => exact ⟨_, _, rfl, hrun, h⟩
  · rintro ⟨run, t, rfl, hrun, h⟩
    exact .run ha hrun h

theorem takesLine_nil : TakesLine [] s ↔ s = [] ∨ s = [10] := by
  constructor
  · rintro (h | ⟨t, rfl, h⟩)
    · cases h
      exact Or.inl rfl
    · cases h
      exact Or.inr rfl
  · rintro (rfl | rfl)
    · exact Or.inl .nil
    · exact Or.inr ⟨[], rfl, .nil⟩

theorem takesLine_one (ha : a.runs = false) :
    TakesLine (a :: atoms) s ↔ ∃ x t, s = x :: t ∧ a.ok x = true ∧ TakesLine atoms t := by
  constructor
  · rintro (h | ⟨t, rfl, h⟩)
    · obtain ⟨x, t, rfl, hx, h⟩ := (takes_one ha).mp h
      exact ⟨x, t, rfl, hx, Or.inl h⟩
    · obtain ⟨x, t, rfl, hx, h⟩ := (takes_one ha).mp h
      exact ⟨x, t ++ [10], rfl, hx, Or.inr ⟨t, rfl, h⟩⟩
  · rintro ⟨x, t, rfl, hx, h | ⟨t, rfl, h⟩⟩
    · exact Or.inl (.one ha hx h)
    · exact Or.inr ⟨x :: t, rfl, .one ha hx h⟩

theorem takesLine_run (ha : a.runs = true) :
    TakesLine (a :: atoms) s ↔ ∃ run t, s = run ++ t ∧ (∀ x ∈ run, a.ok x = true) ∧ TakesLine atoms t := by
  constructor
  · rintro (h | ⟨t, rfl, h⟩)
    · obtain ⟨run, t, rfl, hrun, h⟩ := (takes_run ha).mp h
      exact ⟨run, t, rfl, hrun, Or.inl h⟩
    · obtain ⟨run, t, rfl, hrun, h⟩ := (takes_run ha).mp h
      exact ⟨run, t ++ [10], by simp, hrun, Or.inr ⟨t, rfl, h⟩⟩
  · rintro ⟨run, t, rfl, hrun, h | ⟨t, rfl, h⟩⟩
    · exact Or.inl (.run ha hrun h)
    · exact Or.inr ⟨run ++ t, by simp, .run ha hrun h⟩

theorem takeAtoms_eq_true : takeAtoms atoms s = true ↔ TakesLine atoms s := by
  induction atoms generalizing s with
  | nil => simp [takeAtoms, takesLine_nil]
  | cons a atoms ih =>
    cases ha : a.runs with
    | true =>
      rw [takesLine_run ha, takeAtoms, if_pos ha, someEnd_eq_true]
      simp only [ih]
    | false =>
      rw [takesLine_one ha, takeAtoms, if_neg (by simp [ha])]
      cases s with
      | nil => simp [headThen]
      | cons x s => simp [headThen, ih]

theorem RegexAtom.literal_spec (h : a.byte.isSome) :
    a.runs = false ∧ ∀ x, a.ok x = true ↔ a.byte = some x := by
  cases a with
  | lit c =>
    refine ⟨rfl, fun x => ?_⟩
    rw [ok, byte, beq_iff_eq, Option.some_inj]
    exact eq_comm
  | escaped c =>
    refine ⟨rfl, fun x => ?_⟩
    rw [ok, byte, beq_iff_eq, Option.some_inj]
    exact eq_comm
  | any => cases h
  | anyRun => cases h
  | nonDot => cases h
  | nonDotRun => cases h

theorem takes_literals (h : ∀ a ∈ lits, a.byte.isSome) :
    Takes lits s ↔ s = lits.filterMap RegexAtom.byte := by
  induction lits generalizing s with
  | nil =>
    constructor
    · intro h
      cases h
      rfl
    · rintro rfl
      exact .nil
  | cons a lits ih =>
    rw [List.forall_mem_cons] at h
    obtain ⟨hruns, hok⟩ := RegexAtom.literal_spec h.1
    obtain ⟨c, hc⟩ := Option.isSome_iff_exists.mp h.1
    rw [takes_one hruns, List.filterMap_cons, hc]
    simp [hok, hc, ih h.2]

theorem TakesLine.literals_isPrefix (h : ∀ a ∈ lits, a.byte.isSome) (hs : TakesLine (lits ++ atoms) s) :
    lits.filterMap RegexAtom.byte <+: s := by
  induction lits generalizing s with
  | nil => exact List.nil_prefix
  | cons a lits ih =>
    rw [List.forall_mem_cons] at h
    obtain ⟨hruns, hok⟩ := RegexAtom.literal_spec h.1
    obtain ⟨x, t, rfl, hx, ht⟩ := (takesLine_one hruns).mp hs
    rw [List.filterMap_cons, (hok x).mp hx]
    exact List.cons_prefix_cons.mpr ⟨rfl, ih h.2 ht⟩

end Takes

theorem RegexAtom.length_text (a : RegexAtom) : 0 < a.text.length := by
  cases a <;> simp [text]

theorem length_le_regexAtomsText (atoms : List RegexAtom) : atoms.length ≤ (regexAtomsText atoms).length := by
  induction atoms with
  | nil => simp
  | cons a atoms ih =>
    have := a.length_text
    simp only [regexAtomsText_cons, List.length_append, List.length_cons]
    omega

theorem takesCompile_anchored {atoms : List RegexAtom} (h : ∀ a ∈ atoms, a.Valid) :
    takesCompile (anchoredRegex atoms) = some (takeAtoms atoms) := by
  have hlen := length_le_regexAtomsText atoms
  rw [anchoredRegex, takesCompile, if_pos rfl, readAtoms_text h ?_, Option.map_some]
  rw [List.length_append]
  omega

theorem takesCompile_starts {lits : List RegexAtom} {rest s : Bytes} {exec : Bytes → Bool}
    (h : ∀ a ∈ lits, a.Valid ∧ a.byte.isSome)
    (hcompile : takesCompile (94 :: (regexAtomsText lits ++ rest)) = some exec) (hs : exec s = true) :
    lits.filterMap RegexAtom.byte <+: s := by
  rw [takesCompile, if_pos rfl] at hcompile
  obtain ⟨atoms, hread, rfl⟩ := Option.map_eq_some_iff.mp hcompile
  obtain ⟨more, rfl⟩ := readAtoms_literals h hread
  exact (takeAtoms_eq_true.mp hs).literals_isPrefix fun a ha => (h a ha).2

def takesPcre : Pcre where
  compile := takesCompile
  alternates re := decide (124 ∈ re)
  one_alternative _ h := decide_eq_false h
  bar_alternates _ _ _ := decide_eq_true (by simp)
  anchored atoms h := ⟨takeAtoms atoms, takesCompile_anchored h, fun _ => takeAtoms_eq_true⟩
  starts _ _ _ _ h hcompile _ _ hs := takesCompile_starts h hcompile hs

end Reconnoiter
