import Reconnoiter.Bytes

/-! `prom_name_munge_units`: the unit is taken out of a Prometheus name, which may end in a standard
suffix behind the unit. -/

namespace Reconnoiter

def strrchr (c : UInt8) : Bytes → Option (Bytes × Bytes)
  | [] => none
  | x :: s =>
    match strrchr c s with
    | some (before, behind) => some (x :: before, behind)
    | none => if x = c then some ([], s) else none

/-- `count`, `sum`, `bucket` and `total`. -/
def standardSuffixes : List Bytes :=
  [[99, 111, 117, 110, 116], [115, 117, 109], [98, 117, 99, 107, 101, 116], [116, 111, 116, 97, 108]]

/-- `seconds`, `requests`, `responses`, `transactions`, `packets`, `bytes` and `octets`. -/
def allowedUnits : List Bytes :=
  [[115, 101, 99, 111, 110, 100, 115], [114, 101, 113, 117, 101, 115, 116, 115],
    [114, 101, 115, 112, 111, 110, 115, 101, 115], [116, 114, 97, 110, 115, 97, 99, 116, 105, 111, 110, 115],
    [112, 97, 99, 107, 101, 116, 115], [98, 121, 116, 101, 115], [111, 99, 116, 101, 116, 115]]

def isStandardSuffix (suffix : Bytes) : Bool := standardSuffixes.contains suffix

def unitsSuffix (allowed : Option (List Bytes)) (component : Bytes) : Option Bytes :=
  (allowed.getD allowedUnits).find? (· == component)

def promNameMungeUnits (allowed : Option (List Bytes)) (input : Bytes) : Bytes × Option Bytes :=
  let (histSuff, ls) :=
    match strrchr 95 input with
    | none => (none, none)
    | some (head, suffix) =>
      if isStandardSuffix suffix then (some suffix, strrchr 95 head) else (none, some (head, suffix))
  let units := ls.bind fun s => unitsSuffix allowed s.2
  let name :=
    match histSuff, ls with
    -- the suffix moves to `ls`, whether a unit stood there or not
    | some suffix, some (before, _) => before ++ 95 :: suffix
    | none, some (before, _) => if units.isSome then before else input
    | _, none => input
  (name, units)

def Munged (input : Bytes) (result : Bytes × Option Bytes) : Prop :=
  match result.2 with
  | none => result.1 = input
  | some units => 95 ∉ units ∧ ∃ before rest, input = before ++ 95 :: (units ++ rest) ∧
      result.1 = before ++ rest ∧
      (rest = [] ∨ ∃ suffix, isStandardSuffix suffix = true ∧ rest = 95 :: suffix)

def SuffixBehindOther (allowed : Option (List Bytes)) (input : Bytes) : Prop :=
  ∃ before component suffix, input = before ++ 95 :: (component ++ 95 :: suffix) ∧ 95 ∉ component ∧
    isStandardSuffix suffix = true ∧ unitsSuffix allowed component = none

theorem strrchr_cases (c : UInt8) (s : Bytes) : c ∉ s ∧ strrchr c s = none ∨
    ∃ before behind, s = before ++ c :: behind ∧ c ∉ behind ∧ strrchr c s = some (before, behind) := by
  induction s with
  | nil => exact .inl ⟨List.not_mem_nil, rfl⟩
  | cons x s ih =>
    rw [strrchr]
    rcases ih with ⟨hc, hnone⟩ | ⟨before, behind, rfl, hbehind, hsome⟩
    · by_cases hx : x = c
      · exact .inr ⟨[], s, by rw [hx]; rfl, hc, by rw [hnone]; exact if_pos hx⟩
      · exact .inl ⟨by simpa [Ne.symm hx] using hc, by rw [hnone]; exact if_neg hx⟩
    · exact .inr ⟨x :: before, behind, rfl, hbehind, by rw [hsome]⟩

theorem strrchr_append {c : UInt8} {behind : Bytes} (h : c ∉ behind) (before : Bytes) :
    strrchr c (before ++ c :: behind) = some (before, behind) := by
  induction before with
  | nil =>
    rcases strrchr_cases c behind with ⟨-, hnone⟩ | ⟨l, r, rfl, -, -⟩
    · rw [List.nil_append, strrchr, hnone]
      exact if_pos rfl
    · simp at h
  | cons x before ih => rw [List.cons_append, strrchr, ih]

theorem unitsSuffix_eq_some {allowed : Option (List Bytes)} {component units : Bytes}
    (h : unitsSuffix allowed component = some units) : units = component := by
  simpa using List.find?_some h

theorem underscore_not_mem_standardSuffix {suffix : Bytes} (h : isStandardSuffix suffix = true) :
    95 ∉ suffix := by
  have hall : ∀ s ∈ standardSuffixes, (95 : UInt8) ∉ s := by decide
  exact hall suffix (List.contains_iff_mem.mp h)

section

variable (allowed : Option (List Bytes)) {before component suffix : Bytes}

theorem promNameMungeUnits_suffix (hc : 95 ∉ component) (hs : isStandardSuffix suffix = true) :
    promNameMungeUnits allowed (before ++ 95 :: (component ++ 95 :: suffix)) =
      (before ++ 95 :: suffix, unitsSuffix allowed component) := by
  have hinput : before ++ 95 :: (component ++ 95 :: suffix) = (before ++ 95 :: component) ++
    95 :: suffix := by simp
  rw [promNameMungeUnits, hinput, strrchr_append (underscore_not_mem_standardSuffix hs)]
  simp only [hs, if_true, strrchr_append hc, Option.bind_some]

theorem promNameMungeUnits_plain (hc : 95 ∉ component) (hs : isStandardSuffix component = false) :
    promNameMungeUnits allowed (before ++ 95 :: component) =
      (if (unitsSuffix allowed component).isSome then before else before ++ 95 :: component,
        unitsSuffix allowed component) := by
  rw [promNameMungeUnits, strrchr_append hc]
  simp only [hs, Bool.false_eq_true, if_false, Option.bind_some]

theorem promNameMungeUnits_first (hb : 95 ∉ before) (hs : isStandardSuffix suffix = true) :
    promNameMungeUnits allowed (before ++ 95 :: suffix) = (before ++ 95 :: suffix, none) := by
  have hnone : strrchr 95 before = none := by
    rcases strrchr_cases 95 before with ⟨-, hnone⟩ | ⟨l, r, rfl, -, -⟩
    · exact hnone
    · simp at hb
  rw [promNameMungeUnits, strrchr_append (underscore_not_mem_standardSuffix hs)]
  simp only [hs, if_true, hnone, Option.bind_none]

end

theorem not_suffixBehindOther {allowed : Option (List Bytes)} {input head suffix : Bytes}
    (hsplit : strrchr 95 input = some (head, suffix))
    (h : isStandardSuffix suffix = true → ∀ before component, head = before ++ 95 :: component →
      95 ∉ component →
      (unitsSuffix allowed component).isSome = true) : ¬SuffixBehindOther allowed input := by
  rintro ⟨before, component, suffix', rfl, hc, hs, hnone⟩
  have hinput : before ++ 95 :: (component ++ 95 :: suffix') = (before ++ 95 :: component) ++
    95 :: suffix' := by simp
  rw [hinput, strrchr_append (underscore_not_mem_standardSuffix hs)] at hsplit
  obtain ⟨rfl, rfl⟩ := Prod.mk.inj (Option.some.inj hsplit)
  have hsome := h hs before component rfl hc
  rw [hnone] at hsome
  cases hsome

/-- A unit is taken out of a name and nothing else happens to the name, unless a standard suffix stands
behind a component that is not a unit: the suffix takes the place of that component. -/
theorem munge_units_minimal_iff (allowed : Option (List Bytes)) (input : Bytes) :
    Munged input (promNameMungeUnits allowed input) ↔ ¬SuffixBehindOther allowed input := by
  rcases strrchr_cases 95 input with ⟨hc, hnone⟩ | ⟨head, suffix, rfl, hsuffix, hsome⟩
  · rw [promNameMungeUnits, hnone]
    refine iff_of_true rfl ?_
    rintro ⟨before, component, suffix, rfl, -⟩
    simp at hc
  by_cases hs : isStandardSuffix suffix = true
  · rcases strrchr_cases 95 head with ⟨hc, -⟩ | ⟨before, component, rfl, hc, -⟩
    · rw [promNameMungeUnits_first allowed hc hs]
      refine iff_of_true rfl (not_suffixBehindOther hsome fun _ before component heq => ?_)
      rw [heq] at hc
      simp at hc
    rw [List.append_assoc, List.cons_append] at hsome ⊢
    rw [promNameMungeUnits_suffix allowed hc hs]
    cases hunits : unitsSuffix allowed component with
    | none =>
      refine iff_of_false ?_ (not_not.mpr ⟨before, component, suffix, rfl, hc, hs, hunits⟩)
      intro h
      have hlen := congrArg List.length (show before ++ 95 :: suffix = _ from h)
      simp at hlen
      omega
    | some units =>
      obtain rfl := unitsSuffix_eq_some hunits
      refine iff_of_true ⟨hc, before, 95 :: suffix, rfl, rfl, .inr ⟨suffix, hs, rfl⟩⟩
        (not_suffixBehindOther hsome fun _ before' component' heq hc' => ?_)
      have hsame := strrchr_append hc before
      rw [heq, strrchr_append hc'] at hsame
      rw [(Prod.mk.inj (Option.some.inj hsame)).2, hunits]
      rfl
  · rw [Bool.not_eq_true] at hs
    rw [promNameMungeUnits_plain allowed hsuffix hs]
    have hnot : ¬SuffixBehindOther allowed (head ++ 95 :: suffix) :=
      not_suffixBehindOther hsome fun hs' => absurd hs' (by simp [hs])
    cases hunits : unitsSuffix allowed suffix with
    | none => exact iff_of_true rfl hnot
    | some units =>
      obtain rfl := unitsSuffix_eq_some hunits
      exact iff_of_true ⟨hsuffix, head, [], by simp, by simp, .inl rfl⟩ hnot

theorem munge_units_drops_component : promNameMungeUnits none [97, 95, 98, 95, 99, 111, 117, 110, 116] =
    ([97, 95, 99, 111, 117, 110, 116], none) := by
  decide

end Reconnoiter
