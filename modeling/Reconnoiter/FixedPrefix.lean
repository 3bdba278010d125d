import Reconnoiter.GraphiteMatch

/-! The text a matcher says its subjects begin with, `append_fixed_prefix` in
`noit_metric_tag_search.c`. -/

namespace Reconnoiter

def validNonReChar (c : UInt8) : Bool :=
  !([123, 125, 40, 41, 91, 93, 46, 42, 63, 43, 94, 36, 92] : Bytes).contains c

def fixedByte : Bytes → Option (UInt8 × Bytes)
  | [] => none
  | [c] => if c ≠ 0 ∧ validNonReChar c then some (c, []) else none
  | c :: d :: s =>
    if c = 92 ∧ d ≠ 0 ∧ alnumByte d = false then some (d, s)
    else if c ≠ 0 ∧ validNonReChar c then some (c, d :: s)
    else none

def appendPrefixLoop : Nat → Bytes → Bytes × Bool
  | 0, _ => ([], false)
  | room + 1, s =>
    if s = [36] then ([], true)
    else match fixedByte s with
      | none => ([], false)
      | some (c, s) =>
        if s.head? = some 63 ∨ s.head? = some 42 then ([], false)
        else ((appendPrefixLoop room s).1.cons c, (appendPrefixLoop room s).2)

/-- `append_prefix` on a buffer of `len` bytes that holds `out`; `re` says that the expression is
compiled. -/
def appendPrefix (out : Bytes) (len : Nat) (reStr : Option Bytes) (re : Bool) : Bytes × Bool :=
  match reStr with
  | none => (out, false)
  | some reStr =>
    if re then
      if reStr.head? = some 94 then
        let (text, all) := appendPrefixLoop (len - out.length - 1) (reStr.drop 1)
        (out ++ text, all)
      else (out, false)
    else
      let text := reStr.take (len - out.length - 1)
      (out ++ text, out.length + reStr.length == (out ++ text).length)

def buildRegexFromExpansion (expansion : Bytes) : Bytes :=
  94 :: (expansion.flatMap fun c =>
    if c = 42 then [46, 42] else if c = 63 then [46] else if c = 46 then [92, 46] else [c]) ++ [36]

inductive VarMatcher where
  | exact (pattern : Option Bytes)
  | default (pattern : Bytes)
  | re (pattern : Bytes)
  | graphite (pattern : Bytes) (g : GraphiteImpl) (h : ∃ fuel, graphiteExpand fuel pattern = some g)

/-- `var_re_match`. An expression that does not compile accepts nothing. -/
def varReMatch (pcre : Pcre) (reStr subj : Bytes) : Bool :=
  match pcre.compile reStr with
  | some exec => exec subj
  | none => false

def VarMatcher.accepts (pcre : Pcre) (subj : Bytes) : VarMatcher → Bool
  | exact pattern => pattern == some subj
  | default pattern => varReMatch pcre (buildRegexFromExpansion pattern) subj
  | re pattern => varReMatch pcre pattern subj
  | graphite pattern g _ => varGraphiteMatch pcre g pattern subj

def reSet (pcre : Pcre) (tried : Bool) (reStr : Bytes) : Bool := tried && (pcre.compile reStr).isSome

/-- `var_graphite_afp`. A single expansion without wildcards has no expression to look at. -/
def varGraphiteAfp (pcre : Pcre) (tried : Bool) (g : GraphiteImpl) (pattern out : Bytes) (len : Nat) :
    Option (Bytes × Bool) :=
  match g.results with
  | [r] => r.reStr.map fun reStr => appendPrefix out len (some reStr) (reSet pcre tried reStr)
  | _ =>
    let fpl := min g.fixedPrefixLen (len - out.length - 1)
    some (out ++ pattern.take fpl, pattern.length == fpl)

/-- The function of each matcher; `tried` says whether its expressions have been compiled. No value
stands for the use of a null pointer. -/
def VarMatcher.appendFixedPrefix (pcre : Pcre) (tried : Bool) (out : Bytes) (len : Nat) :
    VarMatcher → Option (Bytes × Bool)
  | exact pattern => some (appendPrefix out len pattern false)
  | default pattern =>
    let reStr := buildRegexFromExpansion pattern
    some (appendPrefix out len (some reStr) (reSet pcre tried reStr))
  | re pattern => some (appendPrefix out len (some pattern) (reSet pcre tried pattern))
  | graphite pattern g _ => varGraphiteAfp pcre tried g pattern out len

def RegexAtom.fixed : RegexAtom → Bool
  | .lit c => c != 0 && validNonReChar c
  | .escaped c => c != 0 && !alnumByte c
  | _ => false

def literalBytes (units : List RegexAtom) : Bytes := units.filterMap RegexAtom.byte

/-- What a compiled expression must be for `append_prefix` with so much room: where it begins with
literals it has no other alternative, the last of them is not repeated zero times and nothing that is
passed over stands behind it, and where it is nothing else the subject is not their text with a newline
behind it. -/
structure PlainExpression (pcre : Pcre) (room : Nat) (reStr subj : Bytes) : Prop where
  compiles : (pcre.compile reStr).isSome
  begins : ∀ units rest, units ≠ [] → (∀ a ∈ units, a.fixed = true) → units.length ≤ room →
    reStr = 94 :: (regexAtomsText units ++ rest) → rest.head? ≠ some 63 → rest.head? ≠ some 42 →
    pcre.alternates reStr = false ∧ zeroRepeat rest = false ∧ passedOver rest = false
  line : ∀ units, (∀ a ∈ units, a.fixed = true) → units.length < room → reStr = anchoredRegex units →
    subj ≠ literalBytes units ++ [10]

def VarMatcher.PrefixHolds (pcre : Pcre) (tried : Bool) (room : Nat) (subj : Bytes) : VarMatcher → Prop
  | exact _ => True
  | default pattern => tried = true ∧ PlainExpression pcre room (buildRegexFromExpansion pattern) subj
  | re pattern => tried = true ∧ PlainExpression pcre room pattern subj
  | graphite pattern g _ =>
    ∀ r, g.results = [r] →
      (∃ reStr, r.reStr = some reStr ∧ tried = true ∧ PlainExpression pcre room reStr subj) ∧
      (subj = pattern.take g.fixedPrefixLen →
        (pattern.drop g.fixedPrefixLen).head? = some 123 ∨ (pattern.drop g.fixedPrefixLen).head? = some 92 →
        r.accepts pcre subj = true)

section Loop

variable {room : Nat} {s rest : Bytes} {c : UInt8} {units : List RegexAtom}

theorem exists_of_fixedByte (h : fixedByte s = some (c, rest)) :
    ∃ a : RegexAtom, a.fixed = true ∧ a.byte = some c ∧ s = a.text ++ rest := by
  fun_cases fixedByte s with
  | case1 => cases h
  | case2 d hd =>
    simp only [fixedByte, if_pos hd, Option.some.injEq, Prod.mk.injEq] at h
    obtain ⟨rfl, rfl⟩ := h
    exact ⟨.lit d, by simp [RegexAtom.fixed, hd.1, hd.2], rfl, rfl⟩
  | case3 d hd => simp [fixedByte, hd] at h
  | case4 d d' t hd =>
    simp only [fixedByte, if_pos hd, Option.some.injEq, Prod.mk.injEq] at h
    obtain ⟨rfl, rfl⟩ := h
    exact ⟨.escaped d', by simp [RegexAtom.fixed, hd.2.1, hd.2.2], rfl, by rw [hd.1]; rfl⟩
  | case5 d d' t hd hd' =>
    simp only [fixedByte, if_neg hd, if_pos hd', Option.some.injEq, Prod.mk.injEq] at h
    obtain ⟨rfl, rfl⟩ := h
    exact ⟨.lit d, by simp [RegexAtom.fixed, hd'.1, hd'.2], rfl, rfl⟩
  | case6 d d' t hd hd' => simp [fixedByte, hd, hd'] at h

theorem appendPrefixLoop_spec (room : Nat) (s : Bytes) :
    ∃ units rest, (∀ a ∈ units, a.fixed = true) ∧ units.length ≤ room ∧ s = regexAtomsText units ++ rest ∧
      (appendPrefixLoop room s).1 = literalBytes units ∧
      (units ≠ [] → rest.head? ≠ some 63 ∧ rest.head? ≠ some 42) ∧
      ((appendPrefixLoop room s).2 = true → rest = [36] ∧ units.length < room) := by
  induction room generalizing s with
  | zero => exact ⟨[], s, by simp, le_rfl, rfl, rfl, by simp, by simp [appendPrefixLoop]⟩
  | succ room ih =>
    rw [appendPrefixLoop]
    by_cases hend : s = [36]
    · rw [if_pos hend]
      exact ⟨[], s, by simp, by simp, rfl, rfl, by simp, fun _ => ⟨hend, by simp⟩⟩
    rw [if_neg hend]
    cases hbyte : fixedByte s with
    | none => exact ⟨[], s, by simp, by simp, rfl, rfl, by simp, by simp⟩
    | some p =>
      obtain ⟨c, t⟩ := p
      dsimp only
      by_cases hrepeat : t.head? = some 63 ∨ t.head? = some 42
      · rw [if_pos hrepeat]
        exact ⟨[], s, by simp, by simp, rfl, rfl, by simp, by simp⟩
      rw [if_neg hrepeat]
      obtain ⟨a, hfixed, hc, rfl⟩ := exists_of_fixedByte hbyte
      obtain ⟨units, rest, hunits, hroom, ht, hout, hrest, hall⟩ := ih t
      refine ⟨a :: units, rest, ?_, ?_, ?_, ?_, ?_, ?_⟩
      · rw [List.forall_mem_cons]
        exact ⟨hfixed, hunits⟩
      · simpa using hroom
      · rw [regexAtomsText_cons, List.append_assoc, ← ht]
      · rw [literalBytes, List.filterMap_cons, hc, hout]
        rfl
      · intro _
        cases units with
        | nil =>
          rw [show t = rest from ht] at hrepeat
          exact not_or.mp hrepeat
        | cons b units => exact hrest (by simp)
      · intro h
        exact ⟨(hall h).1, by simpa using (hall h).2⟩

theorem RegexAtom.fixed_spec {a : RegexAtom} (h : a.fixed = true) :
    a = .lit 124 ∨ a.Valid ∧ a.byte.isSome := by
  cases a with
  | lit c =>
    by_cases hc : c = 124
    · exact Or.inl (by rw [hc])
    · right
      rw [fixed, Bool.and_eq_true, bne_iff_ne, validNonReChar, Bool.not_eq_true', List.contains_eq_mem,
        decide_eq_false_iff_not] at h
      refine ⟨?_, rfl⟩
      rw [Valid, metaBytes]
      simp only [List.mem_cons, List.not_mem_nil] at h ⊢
      tauto
  | escaped c =>
    rw [fixed, Bool.and_eq_true, bne_iff_ne, Bool.not_eq_true'] at h
    exact Or.inr ⟨h, rfl⟩
  | any => cases h
  | anyRun => cases h
  | nonDot => cases h
  | nonDotRun => cases h

theorem valid_of_one_alternative {pcre : Pcre} (h : ∀ a ∈ units, a.fixed = true)
    (halt : pcre.alternates (94 :: (regexAtomsText units ++ rest)) = false) :
    ∀ a ∈ units, a.Valid ∧ a.byte.isSome := by
  -- the first bare bar of the run would be another alternative
  have hrun : ∀ (us vs : List RegexAtom), (∀ a ∈ us, a.Valid ∧ a.byte.isSome) → (∀ a ∈ vs, a.fixed = true) →
      pcre.alternates (94 :: (regexAtomsText (us ++ vs) ++ rest)) = false →
        ∀ a ∈ us ++ vs, a.Valid ∧ a.byte.isSome := by
    intro us vs hus hvs halt
    induction vs generalizing us with
    | nil => simpa using hus
    | cons b vs ih =>
      rw [List.forall_mem_cons] at hvs
      rcases RegexAtom.fixed_spec hvs.1 with rfl | hb
      · have hbar := pcre.bar_alternates us (regexAtomsText vs ++ rest) hus
        rw [show regexAtomsText (us ++ .lit 124 :: vs) ++ rest = regexAtomsText us ++
          124 :: (regexAtomsText vs ++ rest) by
          simp [regexAtomsText, RegexAtom.text], hbar] at halt
        cases halt
      · have hus' : ∀ a ∈ us ++ [b], a.Valid ∧ a.byte.isSome := by
          simpa [or_imp, forall_and] using ⟨⟨fun a ha => (hus a ha).1, hb.1⟩, fun a ha => (hus a ha).2, hb.2⟩
        have := ih (us ++ [b]) hus' hvs.2 (by simpa using halt)
        simpa using this
  exact hrun [] units (by simp) h halt

end Loop

section Append

variable {pcre : Pcre} {exec : Bytes → Bool} {out reStr subj : Bytes} {len : Nat}

theorem appendPrefix_compiled (h : PlainExpression pcre (len - out.length - 1) reStr subj)
    (hexec : pcre.compile reStr = some exec) :
    ∃ units all, appendPrefix out len (some reStr) true = (out ++ literalBytes units, all) ∧
      (∀ a ∈ units, a.fixed = true) ∧ (units ≠ [] → ∃ rest, reStr = 94 :: (regexAtomsText units ++ rest)) ∧
      (all = true → reStr = anchoredRegex units) ∧ (exec subj = true → literalBytes units <+: subj) ∧
      (all = true → (exec subj = true ↔ subj = literalBytes units)) := by
  rw [appendPrefix, if_pos rfl]
  by_cases hhead : reStr.head? = some 94
  · obtain ⟨s, rfl⟩ : ∃ s, reStr = 94 :: s := ⟨reStr.drop 1, by cases reStr <;> simp_all⟩
    obtain ⟨units, rest, hunits, hroom, rfl, hout, hrest, hall⟩ :=
      appendPrefixLoop_spec (len - out.length - 1) s
    rw [if_pos hhead]
    refine ⟨units, _, by rw [← hout]; rfl, hunits, fun _ => ⟨rest, rfl⟩,
      fun h => by rw [(hall h).1]; rfl, ?_, ?_⟩
    · intro hs
      by_cases hnil : units = []
      · rw [hnil]
        exact List.nil_prefix
      obtain ⟨hquestion, hstar⟩ := hrest hnil
      obtain ⟨halt, hzero, hpassed⟩ := h.begins units rest hnil hunits hroom rfl hquestion hstar
      refine pcre.starts units rest subj exec (valid_of_one_alternative hunits halt) hexec halt ?_ hs
      simp [mayDrop, hquestion, hstar, hzero, hpassed]
    · intro htrue
      obtain ⟨rfl, hlt⟩ := hall htrue
      have hvalid : ∀ a ∈ units, a.Valid ∧ a.byte.isSome := by
        by_cases hnil : units = []
        · simp [hnil]
        exact valid_of_one_alternative hunits (h.begins units _ hnil hunits hroom rfl (by simp) (by simp)).1
      obtain ⟨exec', hcompile, hexec'⟩ := pcre.anchored units fun a ha => (hvalid a ha).1
      obtain rfl := Option.some.inj (hexec.symm.trans hcompile)
      have hlit : ∀ t, Takes units t ↔ t = literalBytes units :=
        fun t => takes_literals fun a ha => (hvalid a ha).2
      rw [hexec', TakesLine, hlit]
      constructor
      · rintro (hs | ⟨t, rfl, ht⟩)
        · exact hs
        · rw [hlit] at ht
          exact absurd (by rw [ht]) (h.line units hunits hlt rfl)
      · exact Or.inl
  · rw [if_neg hhead]
    exact ⟨[], false, by simp [literalBytes], by simp, by simp, by simp, fun _ => List.nil_prefix, by simp⟩

end Append

def endsFixed (c : UInt8) : Bool := ([42, 91, 63, 92, 123] : Bytes).contains c

def fixedText (s : Bytes) : Bytes := s.takeWhile fun c => !endsFixed c

section Graphite

variable {pattern e u s tail rest : Bytes} {c : UInt8} {units : List RegexAtom}

theorem hasWildcardsLoop_snd (n : Nat) : (hasWildcardsLoop true n s).2 = n + (fixedText s).length := by
  induction s generalizing n with
  | nil => rfl
  | cons c s ih =>
    rw [hasWildcardsLoop, fixedText, List.takeWhile_cons]
    by_cases hwild : c = 42 ∨ c = 91 ∨ c = 63
    · have hends : endsFixed c = true := by
        rcases hwild with rfl | rfl | rfl <;> rfl
      simp [hwild, hends]
    · rw [if_neg hwild]
      by_cases hstop : c = 92 ∨ c = 123
      · have hends : endsFixed c = true := by
          rcases hstop with rfl | rfl <;> rfl
        have hfixed : (true && !(c == 92 || c == 123)) = false := by
          rcases hstop with rfl | rfl <;> rfl
        rw [hfixed]
        simp [hends, hasWildcardsLoop_stopped]
      · have hends : endsFixed c = false := by
          rw [endsFixed, List.contains_eq_mem, decide_eq_false_iff_not]
          simp only [List.mem_cons, List.not_mem_nil]
          tauto
        have hfixed : (true && !(c == 92 || c == 123)) = true := by simpa using hstop
        rw [hfixed]
        simp only [hends, Bool.not_false, if_true, List.length_cons]
        rw [ih, Bool.toNat_true, fixedText]
        omega

theorem fixedText_isPrefix (s : Bytes) : fixedText s <+: s := List.takeWhile_prefix _

theorem not_endsFixed_of_mem (h : c ∈ fixedText s) : endsFixed c = false := by
  simpa using List.mem_takeWhile_imp h

theorem graphiteRegexLoop_cons (hc : c ≠ 42) :
    graphiteRegexLoop (c :: s) = graphiteByteRegex c ++ graphiteRegexLoop s := by
  cases s with
  | nil => simp [graphiteRegexLoop]
  | cons d s => rw [graphiteRegexLoop, if_neg fun h => hc h.1]

theorem graphiteRegexLoop_ne_nil (s : Bytes) : graphiteRegexLoop (c :: s) ≠ [] := by
  have hbyte : graphiteByteRegex c ≠ [] := by
    rw [graphiteByteRegex]
    split_ifs <;> simp
  cases s with
  | nil => exact hbyte
  | cons d s =>
    rw [graphiteRegexLoop]
    split_ifs with h
    · simp
    · simp [hbyte]

theorem literal_of_graphiteByteRegex {a : RegexAtom} (hc : endsFixed c = false) (ha : a.fixed = true)
    (h : graphiteByteRegex c ++ s = a.text ++ rest) : a.byte = some c ∧ s = rest := by
  have hne : c ≠ 42 ∧ c ≠ 63 ∧ c ≠ 92 := by
    refine ⟨?_, ?_, ?_⟩ <;> rintro rfl <;> exact absurd hc (by decide)
  rw [graphiteByteRegex, if_neg hne.1, if_neg hne.2.1] at h
  cases a with
  | lit d =>
    have hd : d ≠ 92 := by
      rintro rfl
      exact absurd ha (by decide)
    split_ifs at h with hdot
    · simp only [RegexAtom.text, List.cons_append, List.cons.injEq] at h
      exact absurd h.1.symm hd
    · simpa [RegexAtom.text, RegexAtom.byte, eq_comm] using h
  | escaped d =>
    split_ifs at h with hdot
    · subst hdot
      simpa [RegexAtom.text, RegexAtom.byte, eq_comm] using h
    · simp only [RegexAtom.text, List.cons_append, List.cons.injEq] at h
      exact absurd h.1 hne.2.2
  | any => cases ha
  | anyRun => cases ha
  | nonDot => cases ha
  | nonDotRun => cases ha

theorem literals_of_fixed (hu : ∀ c ∈ u, endsFixed c = false) (hunits : ∀ a ∈ units, a.fixed = true)
    (h : graphiteRegexLoop (u ++ e) ++ tail = regexAtomsText units ++ rest) :
    (∃ u', u = literalBytes units ++ u' ∧ graphiteRegexLoop (u' ++ e) ++ tail = rest) ∨
    ∃ more, (∀ a ∈ more, a.fixed = true) ∧ literalBytes units = u ++ literalBytes more ∧
      graphiteRegexLoop e ++ tail = regexAtomsText more ++ rest := by
  induction u generalizing units with
  | nil => exact Or.inr ⟨units, hunits, rfl, h⟩
  | cons c u ih =>
    cases units with
    | nil => exact Or.inl ⟨c :: u, rfl, h⟩
    | cons a units =>
      rw [List.forall_mem_cons] at hu hunits
      have hc : c ≠ 42 := by
        rintro rfl
        exact absurd hu.1 (by decide)
      rw [List.cons_append, graphiteRegexLoop_cons hc, List.append_assoc,
        regexAtomsText_cons, List.append_assoc] at h
      obtain ⟨hbyte, hrest⟩ := literal_of_graphiteByteRegex hu.1 hunits.1 h
      have hbytes : literalBytes (a :: units) = c :: literalBytes units := by
        rw [literalBytes, List.filterMap_cons, hbyte]
        rfl
      rw [hbytes]
      rcases ih hu.2 hunits.2 hrest with ⟨u', rfl, h'⟩ | ⟨more, hmore, heq, h'⟩
      · exact Or.inl ⟨u', rfl, h'⟩
      · exact Or.inr ⟨more, hmore, by rw [heq]; rfl, h'⟩

theorem no_literal_of_wildcard {a : RegexAtom} (hc : c = 42 ∨ c = 91 ∨ c = 63) (ha : a.fixed = true) :
    graphiteRegexLoop (c :: s) ++ tail ≠ a.text ++ rest := by
  intro h
  have hhead : (graphiteRegexLoop (c :: s) ++ tail).head? = some 91 ∨
      (graphiteRegexLoop (c :: s) ++ tail).head? = some 46 := by
    cases s with
    | nil =>
      rcases hc with rfl | rfl | rfl
      all_goals exact Or.inl rfl
    | cons d s =>
      rw [graphiteRegexLoop]
      split_ifs with hstars
      · exact Or.inr rfl
      · rcases hc with rfl | rfl | rfl
        all_goals exact Or.inl rfl
  rw [h] at hhead
  cases a with
  | lit d =>
    rcases hhead with hd | hd
    all_goals
      cases hd
      exact absurd ha (by decide)
  | escaped d =>
    rcases hhead with hd | hd
    all_goals cases hd
  | any => cases ha
  | anyRun => cases ha
  | nonDot => cases ha
  | nonDotRun => cases ha

theorem literals_before_wildcard (hu : ∀ c ∈ u, endsFixed c = false) (hunits : ∀ a ∈ units, a.fixed = true)
    (hc : c = 42 ∨ c = 91 ∨ c = 63) (h : graphiteRegexLoop (u ++ c :: s) ++
      tail = regexAtomsText units ++ rest) :
    literalBytes units <+: u ∧ tail.length < rest.length := by
  rcases literals_of_fixed hu hunits h with ⟨u', rfl, hrest⟩ | ⟨more, hmore, hbytes, hrest⟩
  · refine ⟨List.prefix_append _ _, ?_⟩
    have hne : graphiteRegexLoop (u' ++ c :: s) ≠ [] := by
      cases u' with
      | nil => exact graphiteRegexLoop_ne_nil s
      | cons d u' => exact graphiteRegexLoop_ne_nil (u' ++ c :: s)
    have := List.length_pos_iff.mpr hne
    rw [← hrest, List.length_append]
    omega
  · cases more with
    | nil =>
      have := List.length_pos_iff.mpr (@graphiteRegexLoop_ne_nil c s)
      rw [hbytes, ← show graphiteRegexLoop (c :: s) ++ tail = rest from hrest, List.length_append]
      exact ⟨by simp [literalBytes], by omega⟩
    | cons a more =>
      rw [List.forall_mem_cons] at hmore
      rw [regexAtomsText_cons, List.append_assoc] at hrest
      exact absurd hrest (no_literal_of_wildcard hc hmore.1)

theorem wildcard_of_endsFixed (h : endsFixed c = true) (ho : c ≠ 123) (hslash : c ≠ 92) :
    c = 42 ∨ c = 91 ∨ c = 63 := by
  rw [endsFixed, List.contains_eq_mem, decide_eq_true_eq] at h
  simpa [ho, hslash] using h

theorem isPrefix_upTo {v : Bytes} (hv : v <+: s) (h : 123 ∉ v) : v <+: upTo 123 s := by
  obtain ⟨t, rfl⟩ := hv
  refine ⟨upTo 123 t, ?_⟩
  rw [upTo, upTo, List.takeWhile_append_of_pos]
  intro x hx
  rw [bne_iff_ne]
  rintro rfl
  exact h hx

end Graphite

section Sound

variable {pcre : Pcre} {pattern out reStr subj e : Bytes} {len : Nat} {g : GraphiteImpl} {r : GraphiteResult}

def PrefixSound (accepted : Bool) (subj : Bytes) (out : Bytes) (result : Bytes × Bool) : Prop :=
  ∃ text, result.1 = out ++ text ∧ (accepted = true → text <+: subj) ∧
    (result.2 = true → (accepted = true ↔ subj = text))

theorem prefixSound_exact (pattern : Option Bytes) :
    PrefixSound (pattern == some subj) subj out (appendPrefix out len pattern false) := by
  cases pattern with
  | none => exact ⟨[], by simp [appendPrefix], fun _ => List.nil_prefix, by simp [appendPrefix]⟩
  | some p =>
    refine ⟨p.take (len - out.length - 1), rfl, ?_, ?_⟩
    · intro h
      rw [beq_iff_eq, Option.some_inj] at h
      rw [← h]
      exact List.take_prefix _ _
    · intro hall
      simp only [appendPrefix, Bool.false_eq_true, if_false, beq_iff_eq, List.length_append,
        Nat.add_left_cancel_iff] at hall
      have htake : p.take (len - out.length - 1) = p := (List.take_prefix _ _).eq_of_length hall.symm
      rw [htake, beq_iff_eq, Option.some_inj]
      exact eq_comm

theorem prefixSound_re {tried : Bool} (htried : tried = true)
    (h : PlainExpression pcre (len - out.length - 1) reStr subj) :
    PrefixSound (varReMatch pcre reStr subj) subj out
      (appendPrefix out len (some reStr) (reSet pcre tried reStr)) := by
  obtain ⟨exec, hexec⟩ := Option.isSome_iff_exists.mp h.compiles
  obtain ⟨units, all, heq, -, -, -, hbegins, hall⟩ := appendPrefix_compiled h hexec
  rw [reSet, htried, hexec, Option.isSome_some, Bool.and_true, heq, varReMatch, hexec]
  exact ⟨literalBytes units, rfl, hbegins, hall⟩

theorem isPrefix_expansion {fuel : Nat} {v : Bytes} (h : expandBraces fuel [] pattern [] = some [e])
    (hv : v <+: pattern) (ho : 123 ∉ v) : v <+: e :=
  (isPrefix_upTo hv ho).trans (expandBraces_begin h (by simp))

theorem brace_not_mem_fixedText (s : Bytes) : 123 ∉ fixedText s := by
  intro hmem
  exact absurd (not_endsFixed_of_mem hmem) (by decide)

theorem exists_end_of_fixedText (h : (graphiteHasWildcards pattern).1 = true) :
    ∃ c t, pattern = fixedText pattern ++ c :: t ∧ endsFixed c = true := by
  have hsplit : fixedText pattern ++ pattern.dropWhile (fun c => !endsFixed c) = pattern :=
    List.takeWhile_append_dropWhile
  have hends := List.head?_dropWhile_not (fun c => !endsFixed c) pattern
  cases hrest : pattern.dropWhile (fun c => !endsFixed c) with
  | nil =>
    rw [hrest, List.append_nil] at hsplit
    obtain ⟨c, hc, hwild⟩ := hasWildcardsLoop_fst.mp h
    rw [← hsplit] at hc
    have hplain := not_endsFixed_of_mem hc
    rcases hwild with rfl | rfl | rfl
    all_goals exact absurd hplain (by decide)
  | cons c t =>
    rw [hrest] at hsplit hends
    exact ⟨c, t, hsplit.symm, by simpa using hends⟩

theorem fixedText_cases {fuel : Nat} {holds : Prop} (hexpand : expandBraces fuel [] pattern [] = some [e])
    (hwild : (graphiteHasWildcards pattern).1 = true)
    (hstop : (pattern.drop (fixedText pattern).length).head? = some 123 ∨
      (pattern.drop (fixedText pattern).length).head? = some 92 → holds) :
    holds ∨ ∃ c t, (c = 42 ∨ c = 91 ∨ c = 63) ∧ e = fixedText pattern ++ c :: t := by
  obtain ⟨c, t, hpattern, hends⟩ := exists_end_of_fixedText hwild
  have hhead := congrArg (fun s => (List.drop (fixedText pattern).length s).head?) hpattern
  simp only [List.drop_left, List.head?_cons] at hhead
  by_cases hc : c = 123 ∨ c = 92
  · left
    apply hstop
    rw [hhead]
    simpa using hc
  · right
    rw [not_or] at hc
    have hmem : (123 : UInt8) ∉ fixedText pattern ++ [c] := by
      rw [List.mem_append, List.mem_singleton, not_or]
      exact ⟨brace_not_mem_fixedText _, Ne.symm hc.1⟩
    have hpre : fixedText pattern ++ [c] <+: pattern := ⟨t, by rw [List.append_assoc]; exact hpattern.symm⟩
    obtain ⟨t, ht⟩ := isPrefix_expansion hexpand hpre hmem
    exact ⟨c, t, wildcard_of_endsFixed hends hc.1 hc.2, by rw [← ht, List.append_assoc]; rfl⟩

theorem prefixSound_single {fuel : Nat} {tried accepted : Bool} {exec : Bytes → Bool}
    (hexpand : expandBraces fuel [] pattern [] = some [e]) (hwild : (graphiteHasWildcards pattern).1 = true)
    (hre : reStr = buildRegexFromGraphite e) (htried : tried = true)
    (h : PlainExpression pcre (len - out.length - 1) reStr subj) (hexec : pcre.compile reStr = some exec)
    (hfixed : subj = fixedText pattern → (pattern.drop (fixedText pattern).length).head? = some 123 ∨
      (pattern.drop (fixedText pattern).length).head? = some 92 → exec subj = true)
    (haccepted : accepted = true ↔ subj = fixedText pattern ∨ fixedText pattern <+: subj ∧ exec subj = true) :
    PrefixSound accepted subj out (appendPrefix out len (some reStr) (reSet pcre tried reStr)) := by
  obtain ⟨units, all, heq, hunits, hbeginsWith, hwhole, hbegins, hall⟩ := appendPrefix_compiled h hexec
  rw [reSet, htried, hexec, Option.isSome_some, Bool.and_true, heq]
  have hplain : ∀ c ∈ fixedText pattern, endsFixed c = false := fun c hc => not_endsFixed_of_mem hc
  refine ⟨literalBytes units, rfl, ?_, ?_⟩
  · rw [haccepted]
    rintro (hsubj | ⟨-, hs⟩)
    · rcases fixedText_cases hexpand hwild (hfixed hsubj) with hs | ⟨c, t, hc, rfl⟩
      · exact hbegins hs
      · by_cases hnil : units = []
        · rw [hnil]
          exact List.nil_prefix
        obtain ⟨rest, hrest⟩ := hbeginsWith hnil
        rw [hre, buildRegexFromGraphite, List.cons.injEq] at hrest
        rw [hsubj]
        exact (literals_before_wildcard hplain hunits hc hrest.2).1
    · exact hbegins hs
  · intro htrue
    have hloop : graphiteRegexLoop e ++ [] = regexAtomsText units ++ [] := by
      have hanchored := hwhole htrue
      rw [hre, buildRegexFromGraphite, anchoredRegex, List.cons.injEq] at hanchored
      rw [List.append_cancel_right hanchored.2]
    rw [haccepted, hall htrue]
    constructor
    · rintro (hsubj | ⟨-, hs⟩)
      · rcases fixedText_cases hexpand hwild (hfixed hsubj) with hs | ⟨c, t, hc, rfl⟩
        · exact (hall htrue).mp hs
        · exact absurd (literals_before_wildcard hplain hunits hc hloop).2 (Nat.lt_irrefl _)
      · exact hs
    · rintro rfl
      obtain ⟨e', rfl⟩ := isPrefix_expansion hexpand (fixedText_isPrefix pattern)
        (brace_not_mem_fixedText pattern)
      refine Or.inr ⟨?_, rfl⟩
      rcases literals_of_fixed hplain hunits hloop with ⟨u', hu, hrest⟩ | ⟨more, -, hbytes, -⟩
      · cases u' with
        | nil =>
          rw [hu, List.append_nil]
        | cons d u' =>
          rw [List.append_nil] at hrest
          exact absurd hrest (graphiteRegexLoop_ne_nil (u' ++ e'))
      · rw [hbytes]
        exact List.prefix_append _ _

theorem graphiteExpand_spec {fuel : Nat} (h : graphiteExpand fuel pattern = some g) :
    g.fixedPrefixLen = (fixedText pattern).length ∧ ∃ out, expandBraces fuel [] pattern [] = some out ∧
      g.results = out.map (graphiteAddExpansion (graphiteHasWildcards pattern).1) := by
  obtain ⟨out, hout, rfl⟩ := Option.map_eq_some_iff.mp h
  refine ⟨?_, out, hout, rfl⟩
  dsimp only
  rw [graphiteHasWildcards, hasWildcardsLoop_snd, Nat.zero_add]

theorem reStr_graphiteAddExpansion {wildcards : Bool}
    (h : (graphiteAddExpansion wildcards e).reStr = some reStr) :
    wildcards = true ∧ reStr = buildRegexFromGraphite e := by
  rw [graphiteAddExpansion] at h
  dsimp only at h
  split_ifs at h with hwild
  rw [Bool.and_eq_true] at hwild
  exact ⟨hwild.1, (Option.some_inj.mp h).symm⟩

theorem results_of_fixed {fuel : Nat} (h : graphiteExpand fuel pattern = some g)
    (hfixed : fixedText pattern = pattern) :
    g.results = [graphiteAddExpansion (graphiteHasWildcards pattern).1 pattern] := by
  obtain ⟨-, out, hout, hresults⟩ := graphiteExpand_spec h
  have hplain : (123 : UInt8) ∉ pattern := hfixed ▸ brace_not_mem_fixedText pattern
  obtain ⟨fuel', hone⟩ : ExpandsTo [] pattern [] [[] ++ pattern] := expandsTo_plain hplain
  have hmax := expandBraces_mono hout (Nat.le_max_left fuel fuel')
  rw [expandBraces_mono hone (Nat.le_max_right fuel fuel'), Option.some_inj] at hmax
  rw [hresults, ← hmax]
  rfl

theorem prefixSound_several {fuel : Nat} {tried : Bool} (h : graphiteExpand fuel pattern = some g)
    (hsingle : ∀ r, g.results ≠ [r]) :
    ∃ result, varGraphiteAfp pcre tried g pattern out len = some result ∧
      PrefixSound (varGraphiteMatch pcre g pattern subj) subj out result := by
  have hpre := fixedText_isPrefix pattern
  obtain ⟨hlen, -⟩ := graphiteExpand_spec h
  have htake : ∀ room, pattern.take (min g.fixedPrefixLen room) = (fixedText pattern).take room := by
    intro room
    rw [hlen, Nat.min_comm, ← List.take_take, ← List.prefix_iff_eq_take.mp hpre]
  refine ⟨(out ++ pattern.take (min g.fixedPrefixLen (len - out.length - 1)),
    pattern.length == min g.fixedPrefixLen (len - out.length - 1)), ?_, _, rfl, ?_, ?_⟩
  · rw [varGraphiteAfp]
    split
    · exact absurd ‹_› (hsingle _)
    · rfl
  · rw [varGraphiteMatch_iff hpre hlen, htake]
    rintro (rfl | ⟨hsubj, -⟩)
    · exact List.take_prefix _ _
    · exact (List.take_prefix _ _).trans hsubj
  · intro hall
    rw [beq_iff_eq, hlen] at hall
    have hfixed : fixedText pattern = pattern := hpre.eq_of_length_le (by omega)
    exact absurd (results_of_fixed h hfixed) (hsingle _)

end Sound

/-- The text a matcher appends begins every subject it accepts, and is the only one when the
matcher says so. -/
theorem fixed_prefix_sound {pcre : Pcre} {m : VarMatcher} {tried : Bool} {out subj : Bytes} {len : Nat}
    (h : m.PrefixHolds pcre tried (len - out.length - 1) subj) :
    ∃ text all, m.appendFixedPrefix pcre tried out len = some (out ++ text, all) ∧
      (m.accepts pcre subj = true → text <+: subj) ∧
        (all = true → (m.accepts pcre subj = true ↔ subj = text)) := by
  have hsound : ∃ result, m.appendFixedPrefix pcre tried out len = some result ∧
      PrefixSound (m.accepts pcre subj) subj out result := by
    cases m with
    | exact pattern => exact ⟨_, rfl, prefixSound_exact pattern⟩
    | default pattern => exact ⟨_, rfl, prefixSound_re h.1 h.2⟩
    | re pattern => exact ⟨_, rfl, prefixSound_re h.1 h.2⟩
    | graphite pattern g hg =>
      obtain ⟨fuel, hg⟩ := hg
      by_cases hsingle : ∃ r, g.results = [r]
      · obtain ⟨r, hr⟩ := hsingle
        obtain ⟨hlen, expansions, hexpand, hresults⟩ := graphiteExpand_spec hg
        obtain ⟨⟨reStr, hre, htried, hplain⟩, hfixed⟩ := h r hr
        obtain ⟨exec, hexec⟩ := Option.isSome_iff_exists.mp hplain.compiles
        rw [hr] at hresults
        obtain ⟨e, rfl⟩ : ∃ e, expansions = [e] :=
          List.length_eq_one_iff.mp (by simpa using congrArg List.length hresults.symm)
        obtain rfl : r = graphiteAddExpansion (graphiteHasWildcards pattern).1 e := by simpa using hresults
        obtain ⟨hwild, heq⟩ := reStr_graphiteAddExpansion hre
        have haccepts : ∀ subj, (graphiteAddExpansion (graphiteHasWildcards pattern).1 e).accepts
          pcre subj = exec subj := by
          intro subj
          rw [GraphiteResult.accepts, hre, Option.bind_some, hexec]
        have htake : pattern.take g.fixedPrefixLen = fixedText pattern := by
          rw [hlen, ← List.prefix_iff_eq_take.mp (fixedText_isPrefix pattern)]
        rw [htake, hlen, haccepts] at hfixed
        refine ⟨appendPrefix out len (some reStr) (reSet pcre tried reStr), ?_, ?_⟩
        · rw [VarMatcher.appendFixedPrefix, varGraphiteAfp, hr]
          dsimp only
          rw [hre, Option.map_some]
        · refine prefixSound_single hexpand hwild heq htried hplain hexec hfixed ?_
          rw [VarMatcher.accepts, varGraphiteMatch_iff (fixedText_isPrefix pattern) hlen, hr]
          simp [haccepts]
      · exact prefixSound_several hg (not_exists.mp hsingle)
  obtain ⟨⟨text, all⟩, heq, text', rfl, hbegins, hall⟩ := hsound
  exact ⟨text', all, heq, hbegins, hall⟩

theorem fixed_prefix_sound_glob :
    ∃ text all, (VarMatcher.default [102, 111, 111, 42]).appendFixedPrefix takesPcre true [] 16 =
      some ([] ++ text, all) ∧
      ((VarMatcher.default [102, 111, 111, 42]).accepts takesPcre [102, 111, 111, 98, 97, 114] = true →
        text <+: [102, 111, 111, 98, 97, 114]) ∧
      (all = true → ((VarMatcher.default [102, 111, 111, 42]).accepts takesPcre
        [102, 111, 111, 98, 97, 114] = true ↔
        [102, 111, 111, 98, 97, 114] = text)) := by
  refine fixed_prefix_sound ⟨rfl, by decide, ?_, ?_⟩
  · intro units rest _ _ _ heq _ _
    have hnot : ∀ d, d ∉ ([94, 102, 111, 111, 46, 42, 36] : Bytes) → d ∉ rest := by
      intro d hd hmem
      apply hd
      rw [show ([94, 102, 111, 111, 46, 42, 36] : Bytes) =
        buildRegexFromExpansion [102, 111, 111, 42] from rfl, heq]
      simp [hmem]
    cases rest with
    | nil => exact ⟨by decide, rfl, rfl⟩
    | cons c rest =>
      have hne : ∀ d, d ∉ ([94, 102, 111, 111, 46, 42, 36] : Bytes) → d ≠ c := fun d hd h =>
        hnot d hd (h ▸ List.mem_cons_self)
      have hbrace := hne 123 (by decide)
      have hparen := hne 40 (by decide)
      have hback := hne 92 (by decide)
      exact ⟨by decide, by simp [zeroRepeat, Ne.symm hbrace], by simp [passedOver,
        List.isPrefixOf, hparen, hback]⟩
  · intro units _ _ _ heq
    have hlast := congrArg List.getLast? heq
    simp at hlast

theorem fixed_prefix_unsound :
    (∀ pcre : Pcre, (VarMatcher.re [94, 102, 111, 111, 36]).appendFixedPrefix pcre false [] 16 =
        some ([94, 102, 111, 111, 36], true) ∧
      (VarMatcher.re [94, 102, 111, 111, 36]).accepts pcre [102, 111, 111] = true) ∧
    ∀ (pcre : Pcre) g h, (VarMatcher.graphite [102, 111, 111] g h).appendFixedPrefix pcre true
      [] 16 = none := by
  refine ⟨fun pcre => ⟨rfl, ?_⟩, fun pcre g => ?_⟩
  · have hvalid : ∀ a ∈ [RegexAtom.lit 102, .lit 111, .lit 111], a.Valid := by
      simp only [List.forall_mem_cons, RegexAtom.Valid, List.not_mem_nil,
        false_implies, implies_true, and_true]
      decide
    obtain ⟨exec, hcompile, hexec⟩ := pcre.anchored _ hvalid
    have htakes : Takes [RegexAtom.lit 102, .lit 111, .lit 111] [102, 111, 111] :=
      .one rfl rfl (.one rfl rfl (.one rfl rfl .nil))
    rw [VarMatcher.accepts, varReMatch, show ([94, 102, 111, 111, 36] : Bytes) =
      anchoredRegex [RegexAtom.lit 102, .lit 111, .lit 111] from rfl, hcompile]
    exact (hexec _).mpr (Or.inl htakes)
  · rintro ⟨fuel, hg⟩
    rw [VarMatcher.appendFixedPrefix, varGraphiteAfp, results_of_fixed hg (by decide)]
    rfl

end Reconnoiter
