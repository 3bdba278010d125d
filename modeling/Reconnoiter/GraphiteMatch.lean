import Reconnoiter.GraphitePattern
import Reconnoiter.Pcre

/-! Graphite matching, `var_graphite_match` in `noit_metric_tag_search.c`. -/

namespace Reconnoiter

def hasWildcardsLoop (fixed : Bool) (fplen : Nat) : Bytes → Bool × Nat
  | [] => (false, fplen)
  | c :: s =>
    if c = 42 ∨ c = 91 ∨ c = 63 then (true, fplen)
    else
      let fixed := fixed && !(c == 92 || c == 123)
      hasWildcardsLoop fixed (fplen + fixed.toNat) s

/-- `graphite_has_wildcards`, with the length of the fixed prefix. -/
def graphiteHasWildcards (s : Bytes) : Bool × Nat := hasWildcardsLoop true 0 s

def graphiteByteRegex (c : UInt8) : Bytes :=
  if c = 42 then [91, 94, 46, 93, 42]
  else if c = 63 then [91, 94, 46, 93, 123, 49, 125]
  else if c = 46 then [92, 46]
  else [c]

def graphiteRegexLoop : Bytes → Bytes
  | [] => []
  | [c] => graphiteByteRegex c
  | c :: d :: s =>
    if c = 42 ∧ d = 42 then [46, 42] ++ graphiteRegexLoop s
      else graphiteByteRegex c ++ graphiteRegexLoop (d :: s)

def buildRegexFromGraphite (expansion : Bytes) : Bytes := 94 :: (graphiteRegexLoop expansion ++ [36])

structure GraphiteResult where
  str : Bytes
  reStr : Option Bytes
  deriving DecidableEq

structure GraphiteImpl where
  hasWildcards : Bool
  fixedPrefixLen : Nat
  results : List GraphiteResult
  deriving DecidableEq

def graphiteAddExpansion (wildcards : Bool) (s : Bytes) : GraphiteResult where
  str := s
  reStr := if wildcards && (graphiteHasWildcards s).1 then some (buildRegexFromGraphite s) else none

def graphiteExpand (fuel : Nat) (s : Bytes) : Option GraphiteImpl :=
  (expandBraces fuel [] s []).map fun out =>
    ⟨(graphiteHasWildcards s).1, (graphiteHasWildcards s).2,
      out.map (graphiteAddExpansion (graphiteHasWildcards s).1)⟩

/-- One turn of the loop over the expansions. An expression that does not compile is compared as it is. -/
def GraphiteResult.accepts (pcre : Pcre) (subj : Bytes) (r : GraphiteResult) : Bool :=
  match r.reStr.bind pcre.compile with
  | some exec => exec subj
  | none => subj == r.str

def varGraphiteMatch (pcre : Pcre) (g : GraphiteImpl) (pattern subj : Bytes) : Bool :=
  if g.fixedPrefixLen ≠ 0 ∧ (subj.length < g.fixedPrefixLen ∨
      subj.take g.fixedPrefixLen ≠ pattern.take g.fixedPrefixLen) then false
  else if g.fixedPrefixLen = subj.length then true
  else g.results.any (GraphiteResult.accepts pcre subj)

def graphiteByte (c : UInt8) : Bool := alnumByte c || [95, 45, 46, 42, 63].contains c

mutual

def Graphite.Over (ok : UInt8 → Bool) : Graphite → Prop
  | .nil => True
  | .char c rest => ok c = true ∧ rest.Over ok
  | .group alts rest => alts.Over ok ∧ rest.Over ok

def Alternatives.Over (ok : UInt8 → Bool) : Alternatives → Prop
  | .last p => p.isNil = false ∧ p.Over ok
  | .more p alts => (p.isNil = false ∧ p.Over ok) ∧ alts.Over ok

end

/-- What an expansion stands for: `**` any bytes, `*` any run without a dot, `?` one byte that is
no dot. -/
inductive Glob : Bytes → Bytes → Prop
  | nil : Glob [] []
  | char {c : UInt8} {p s : Bytes} (hc : c ≠ 42 ∧ c ≠ 63) (h : Glob p s) : Glob (c :: p) (c :: s)
  | question {x : UInt8} {p s : Bytes} (hx : x ≠ 46) (h : Glob p s) : Glob (63 :: p) (x :: s)
  | doubled {run p s : Bytes} (h : Glob p s) : Glob (42 :: 42 :: p) (run ++ s)
  | star {run p s : Bytes} (hp : p.head? ≠ some 42) (hrun : ∀ x ∈ run, x ≠ 46) (h : Glob p s) :
      Glob (42 :: p) (run ++ s)

def Graphite.fixedPrefix : Graphite → Bytes
  | .char c rest => if c = 42 ∨ c = 63 then [] else c :: rest.fixedPrefix
  | _ => []

def Graphite.behindPrefix : Graphite → Graphite
  | .char c rest => if c = 42 ∨ c = 63 then .char c rest else rest.behindPrefix
  | p => p

mutual

def Graphite.onlyStars : Graphite → Bool
  | .nil => true
  | .char c rest => c == 42 && rest.onlyStars
  | .group alts rest => alts.onlyStars && rest.onlyStars

def Alternatives.onlyStars : Alternatives → Bool
  | .last p => p.onlyStars
  | .more p alts => p.onlyStars || alts.onlyStars

end

def graphiteAtom (c : UInt8) : RegexAtom :=
  if c = 42 then .nonDotRun else if c = 63 then .nonDot else if c = 46 then .escaped 46 else .lit c

def graphiteAtoms : Bytes → List RegexAtom
  | [] => []
  | [c] => [graphiteAtom c]
  | c :: d :: s => if c = 42 ∧ d = 42 then .anyRun :: graphiteAtoms s
      else graphiteAtom c :: graphiteAtoms (d :: s)

theorem graphiteAtom_text (c : UInt8) : (graphiteAtom c).text = graphiteByteRegex c := by
  rw [graphiteAtom, graphiteByteRegex]
  split_ifs <;> rfl

theorem graphiteRegexLoop_eq (s : Bytes) : graphiteRegexLoop s = regexAtomsText (graphiteAtoms s) := by
  fun_induction graphiteRegexLoop s with
  | case1 => rfl
  | case2 c => simp [graphiteAtoms, regexAtomsText, graphiteAtom_text]
  | case3 c d s h ih => simp [graphiteAtoms, h, ih, RegexAtom.text]
  | case4 c d s h ih => rw [graphiteAtoms, if_neg h, regexAtomsText_cons, graphiteAtom_text, ih]

theorem buildRegexFromGraphite_eq (s : Bytes) :
    buildRegexFromGraphite s = anchoredRegex (graphiteAtoms s) := by
  rw [buildRegexFromGraphite, graphiteRegexLoop_eq, anchoredRegex]

theorem graphiteAtom_valid {c : UInt8} (h : graphiteByte c = true) : (graphiteAtom c).Valid := by
  have hmeta : ∀ c ∈ metaBytes, graphiteByte c = true → c = 42 ∨ c = 63 ∨ c = 46 := by decide +kernel
  rw [graphiteAtom]
  split_ifs with hstar hquestion hdot
  · trivial
  · trivial
  · exact ⟨by decide, by decide⟩
  · intro hc
    rcases hmeta c hc h with h | h | h
    · exact hstar h
    · exact hquestion h
    · exact hdot h

theorem graphiteAtoms_valid {e : Bytes} (h : ∀ c ∈ e, graphiteByte c = true) :
    ∀ a ∈ graphiteAtoms e, a.Valid := by
  fun_induction graphiteAtoms e with
  | case1 => simp
  | case2 c => simpa using graphiteAtom_valid (h c (by simp))
  | case3 c d e hstars ih =>
    rw [List.forall_mem_cons]
    exact ⟨trivial, ih fun x hx => h x (by simp [hx])⟩
  | case4 c d e hstars ih =>
    rw [List.forall_mem_cons]
    exact ⟨graphiteAtom_valid (h c (by simp)), ih fun x hx => h x (List.mem_cons_of_mem _ hx)⟩

section Glob

variable {c : UInt8} {e p s : Bytes} {atoms : List RegexAtom}

theorem glob_nil : Glob [] s ↔ s = [] := by
  constructor
  · intro h
    cases h
    rfl
  · rintro rfl
    exact .nil

theorem glob_char (hc : c ≠ 42 ∧ c ≠ 63) : Glob (c :: p) s ↔ ∃ t, s = c :: t ∧ Glob p t := by
  constructor
  · intro h
    cases h with
    | char _ h => exact ⟨_, rfl, h⟩
    | question => exact absurd rfl hc.2
    | doubled => exact absurd rfl hc.1
    | star => exact absurd rfl hc.1
  · rintro ⟨t, rfl, h⟩
    exact .char hc h

theorem glob_question : Glob (63 :: p) s ↔ ∃ x t, s = x :: t ∧ x ≠ 46 ∧ Glob p t := by
  constructor
  · intro h
    cases h with
    | char hc => exact absurd rfl hc.2
    | question hx h => exact ⟨_, _, rfl, hx, h⟩
  · rintro ⟨x, t, rfl, hx, h⟩
    exact .question hx h

theorem glob_doubled : Glob (42 :: 42 :: p) s ↔ ∃ run t, s = run ++ t ∧ Glob p t := by
  constructor
  · intro h
    cases h with
    | char hc => exact absurd rfl hc.1
    | doubled h => exact ⟨_, _, rfl, h⟩
    | star hp => exact absurd rfl hp
  · rintro ⟨run, t, rfl, h⟩
    exact .doubled h

theorem glob_star (hp : p.head? ≠ some 42) :
    Glob (42 :: p) s ↔ ∃ run t, s = run ++ t ∧ (∀ x ∈ run, x ≠ 46) ∧ Glob p t := by
  constructor
  · intro h
    cases h with
    | char hc => exact absurd rfl hc.1
    | doubled => exact absurd rfl hp
    | star _ hrun h => exact ⟨_, _, rfl, hrun, h⟩
  · rintro ⟨run, t, rfl, hrun, h⟩
    exact .star hp hrun h

theorem takes_graphiteAtom (ih : ∀ s, 10 ∉ s → (Takes atoms s ↔ Glob p s)) (hp : c = 42 → p.head? ≠ some 42)
    (hs : 10 ∉ s) : Takes (graphiteAtom c :: atoms) s ↔ Glob (c :: p) s := by
  rw [graphiteAtom]
  split_ifs with hstar hquestion hdot
  · subst hstar
    rw [takes_run rfl, glob_star (hp rfl)]
    refine exists_congr fun run => exists_congr fun t => and_congr_right ?_
    rintro rfl
    rw [List.mem_append, not_or] at hs
    simp [RegexAtom.ok, ih t hs.2]
  · subst hquestion
    rw [takes_one rfl, glob_question]
    refine exists_congr fun x => exists_congr fun t => and_congr_right ?_
    rintro rfl
    rw [List.mem_cons, not_or] at hs
    simp [RegexAtom.ok, ih t hs.2]
  · subst hdot
    rw [takes_one rfl, glob_char ⟨hstar, hquestion⟩]
    constructor
    · rintro ⟨x, t, rfl, hx, h⟩
      rw [List.mem_cons, not_or] at hs
      rw [RegexAtom.ok, beq_iff_eq] at hx
      exact ⟨t, by rw [hx], (ih t hs.2).mp h⟩
    · rintro ⟨t, rfl, h⟩
      rw [List.mem_cons, not_or] at hs
      exact ⟨46, t, rfl, rfl, (ih t hs.2).mpr h⟩
  · rw [takes_one rfl, glob_char ⟨hstar, hquestion⟩]
    constructor
    · rintro ⟨x, t, rfl, hx, h⟩
      rw [List.mem_cons, not_or] at hs
      rw [RegexAtom.ok, beq_iff_eq] at hx
      exact ⟨t, by rw [hx], (ih t hs.2).mp h⟩
    · rintro ⟨t, rfl, h⟩
      rw [List.mem_cons, not_or] at hs
      exact ⟨c, t, rfl, beq_self_eq_true c, (ih t hs.2).mpr h⟩

theorem takes_graphiteAtoms (hs : 10 ∉ s) : Takes (graphiteAtoms e) s ↔ Glob e s := by
  fun_induction graphiteAtoms e generalizing s with
  | case1 =>
    rw [glob_nil]
    constructor
    · intro h
      cases h
      rfl
    · rintro rfl
      exact .nil
  | case2 c =>
    refine takes_graphiteAtom (fun s hs => ?_) (by simp) hs
    rw [glob_nil]
    constructor
    · intro h
      cases h
      rfl
    · rintro rfl
      exact .nil
  | case3 c d e hstars ih =>
    obtain ⟨rfl, rfl⟩ := hstars
    rw [takes_run rfl, glob_doubled]
    refine exists_congr fun run => exists_congr fun t => and_congr_right ?_
    rintro rfl
    rw [List.mem_append, not_or] at hs
    have hrun : ∀ x ∈ run, x ≠ 10 := fun x hx h10 => hs.1 (h10 ▸ hx)
    simpa [RegexAtom.ok, ih hs.2] using fun _ => hrun
  | case4 c d e hstars ih =>
    refine takes_graphiteAtom (fun s hs => ih hs) ?_ hs
    intro hc hd
    exact hstars ⟨hc, by simpa using hd⟩

theorem glob_literal (h : ∀ c ∈ e, c ≠ 42 ∧ c ≠ 63) : Glob e s ↔ s = e := by
  induction e generalizing s with
  | nil => exact glob_nil
  | cons c e ih =>
    rw [List.forall_mem_cons] at h
    rw [glob_char h.1]
    simp [ih h.2]

theorem glob_append_literal {u : Bytes} (h : ∀ c ∈ u, c ≠ 42 ∧ c ≠ 63) :
    Glob (u ++ e) s ↔ ∃ t, s = u ++ t ∧ Glob e t := by
  induction u generalizing s with
  | nil => simp
  | cons c u ih =>
    rw [List.forall_mem_cons] at h
    rw [List.cons_append, glob_char h.1]
    constructor
    · rintro ⟨t, rfl, ht⟩
      obtain ⟨v, rfl, hv⟩ := (ih h.2).mp ht
      exact ⟨v, rfl, hv⟩
    · rintro ⟨t, rfl, ht⟩
      exact ⟨u ++ t, rfl, (ih h.2).mpr ⟨t, rfl, ht⟩⟩

theorem glob_empty : Glob e [] ↔ ∀ c ∈ e, c = 42 := by
  constructor
  · intro h
    generalize hs : ([] : Bytes) = s at h
    induction h with
    | nil => simp
    | char => cases hs
    | question => cases hs
    | doubled h ih =>
      obtain ⟨-, rfl⟩ := List.append_eq_nil_iff.mp hs.symm
      simpa using ih rfl
    | star hp hrun h ih =>
      obtain ⟨-, rfl⟩ := List.append_eq_nil_iff.mp hs.symm
      simpa using ih rfl
  · intro h
    have hrun : ∀ n, Glob (List.replicate n 42) [] := by
      intro n
      induction n using Nat.strong_induction_on with
      | _ n ih =>
        match n with
        | 0 => exact .nil
        | 1 => exact @Glob.star [] [] [] (by simp) (by simp) .nil
        | n + 2 => exact @Glob.doubled [] _ [] (ih n (by omega))
    rw [List.eq_replicate_of_mem h]
    exact hrun _

end Glob

mutual

theorem Graphite.mem_expansions {ok : UInt8 → Bool} {p : Graphite} {e : Bytes} {c : UInt8} (h : p.Over ok)
    (he : e ∈ p.expansions) (hc : c ∈ e) : ok c = true ∧ c ∈ p.text := by
  match p with
  | .nil =>
    rw [Graphite.expansions, List.mem_singleton] at he
    subst he
    cases hc
  | .char d rest =>
    obtain ⟨r, hr, rfl⟩ := List.mem_map.mp he
    rcases List.mem_cons.mp hc with rfl | hc
    · exact ⟨h.1, by simp [Graphite.text]⟩
    · obtain ⟨hok, hmem⟩ := Graphite.mem_expansions h.2 hr hc
      exact ⟨hok, by simp [Graphite.text, hmem]⟩
  | .group alts rest =>
    obtain ⟨a, ha, he⟩ := List.mem_flatMap.mp he
    obtain ⟨r, hr, rfl⟩ := List.mem_map.mp he
    rcases List.mem_append.mp hc with hc | hc
    · obtain ⟨hok, hmem⟩ := Alternatives.mem_expansions h.1 ha hc
      exact ⟨hok, by simp [Graphite.text, hmem]⟩
    · obtain ⟨hok, hmem⟩ := Graphite.mem_expansions h.2 hr hc
      exact ⟨hok, by simp [Graphite.text, hmem]⟩

theorem Alternatives.mem_expansions {ok : UInt8 → Bool} {alts : Alternatives} {e : Bytes} {c : UInt8}
    (h : alts.Over ok) (he : e ∈ alts.expansions) (hc : c ∈ e) : ok c = true ∧ c ∈ alts.text := by
  match alts with
  | .last p => exact Graphite.mem_expansions h.2 he hc
  | .more p alts =>
    rcases List.mem_append.mp he with he | he
    · obtain ⟨hok, hmem⟩ := Graphite.mem_expansions h.1.2 he hc
      exact ⟨hok, by simp [Alternatives.text, hmem]⟩
    · obtain ⟨hok, hmem⟩ := Alternatives.mem_expansions h.2 he hc
      exact ⟨hok, by simp [Alternatives.text, hmem]⟩

end

theorem graphiteByte_ne {c : UInt8} (h : graphiteByte c = true) :
    c ≠ 0 ∧ c ≠ 123 ∧ c ≠ 125 ∧ c ≠ 44 ∧ c ≠ 91 ∧ c ≠ 92 := by
  refine ⟨?_, ?_, ?_, ?_, ?_, ?_⟩
  all_goals
    rintro rfl
    revert h
    decide

mutual

theorem Graphite.wellFormed_of_over {p : Graphite} {inside : Bool} (h : p.Over graphiteByte) :
    p.WellFormed inside := by
  match p with
  | .nil => trivial
  | .char c rest =>
    obtain ⟨hnul, ho, hc, hcomma, -⟩ := graphiteByte_ne h.1
    exact ⟨hnul, ho, hc, fun _ => hcomma, Graphite.wellFormed_of_over h.2⟩
  | .group alts rest => exact ⟨Alternatives.wellFormed_of_over h.1, Graphite.wellFormed_of_over h.2⟩

theorem Alternatives.wellFormed_of_over {alts : Alternatives} (h : alts.Over graphiteByte) :
    alts.WellFormed := by
  match alts with
  | .last p => exact ⟨h.1, Graphite.wellFormed_of_over h.2⟩
  | .more p alts => exact ⟨⟨h.1.1, Graphite.wellFormed_of_over h.1.2⟩, Alternatives.wellFormed_of_over h.2⟩

end

section Prefix

variable {fixed : Bool} {n : Nat} {s : Bytes}

theorem hasWildcardsLoop_fst :
    (hasWildcardsLoop fixed n s).1 = true ↔ ∃ c ∈ s, c = 42 ∨ c = 91 ∨ c = 63 := by
  induction s generalizing fixed n with
  | nil => simp [hasWildcardsLoop]
  | cons c s ih =>
    rw [hasWildcardsLoop]
    split_ifs with hc
    · simp [hc]
    · simp [ih, hc]

theorem hasWildcardsLoop_stopped : (hasWildcardsLoop false n s).2 = n := by
  induction s with
  | nil => rfl
  | cons c s ih =>
    rw [hasWildcardsLoop]
    split_ifs with hc
    · rfl
    · simpa using ih

theorem Graphite.fixedPrefixLen_eq {p : Graphite} {n : Nat} (h : p.Over graphiteByte) :
    (hasWildcardsLoop true n p.text).2 = n + p.fixedPrefix.length := by
  match p with
  | .nil => rfl
  | .char c rest =>
    obtain ⟨-, ho, -, -, hsquare, hslash⟩ := graphiteByte_ne h.1
    rw [text, hasWildcardsLoop, fixedPrefix]
    by_cases hc : c = 42 ∨ c = 63
    · have hwild : c = 42 ∨ c = 91 ∨ c = 63 := by tauto
      rw [if_pos hwild, if_pos hc]
      rfl
    · have hwild : ¬(c = 42 ∨ c = 91 ∨ c = 63) := by tauto
      have hfixed : (true && !(c == 92 || c == 123)) = true := by simp [ho, hslash]
      rw [if_neg hwild, if_neg hc, hfixed, List.length_cons]
      dsimp only
      rw [Graphite.fixedPrefixLen_eq h.2, Bool.toNat_true]
      omega
  | .group alts rest =>
    rw [text, hasWildcardsLoop, if_neg (by decide)]
    exact hasWildcardsLoop_stopped

theorem Graphite.text_eq_fixedPrefix (p : Graphite) : p.text = p.fixedPrefix ++ p.behindPrefix.text := by
  match p with
  | .nil => rfl
  | .char c rest =>
    rw [fixedPrefix, behindPrefix]
    split_ifs with hc
    · rfl
    · rw [text, Graphite.text_eq_fixedPrefix rest, List.cons_append]
  | .group alts rest => rfl

theorem Graphite.expansions_eq_fixedPrefix (p : Graphite) :
    p.expansions = p.behindPrefix.expansions.map (p.fixedPrefix ++ ·) := by
  match p with
  | .nil => simp [expansions, fixedPrefix, behindPrefix]
  | .char c rest =>
    rw [fixedPrefix, behindPrefix]
    split_ifs with hc
    · simp
    · rw [expansions, Graphite.expansions_eq_fixedPrefix rest, List.map_map]
      rfl
  | .group alts rest => simp [fixedPrefix, behindPrefix]

theorem Graphite.fixedPrefix_plain (p : Graphite) : ∀ c ∈ p.fixedPrefix, c ≠ 42 ∧ c ≠ 63 := by
  match p with
  | .nil => simp [fixedPrefix]
  | .char c rest =>
    rw [fixedPrefix]
    split_ifs with hc
    · simp
    · rw [List.forall_mem_cons]
      exact ⟨not_or.mp hc, Graphite.fixedPrefix_plain rest⟩
  | .group alts rest => simp [fixedPrefix]

end Prefix

mutual

theorem Graphite.onlyStars_iff {p : Graphite} : p.onlyStars = true ↔ ∃ e ∈ p.expansions, ∀ c ∈ e, c = 42 := by
  match p with
  | .nil => simp [Graphite.onlyStars, Graphite.expansions]
  | .char c rest =>
    rw [Graphite.onlyStars, Bool.and_eq_true, Graphite.onlyStars_iff, beq_iff_eq]
    simp [Graphite.expansions]
    grind
  | .group alts rest =>
    rw [Graphite.onlyStars, Bool.and_eq_true, Graphite.onlyStars_iff, Alternatives.onlyStars_iff]
    simp [Graphite.expansions]
    grind

theorem Alternatives.onlyStars_iff {alts : Alternatives} :
    alts.onlyStars = true ↔ ∃ e ∈ alts.expansions, ∀ c ∈ e, c = 42 := by
  match alts with
  | .last p => exact Graphite.onlyStars_iff
  | .more p alts =>
    rw [Alternatives.onlyStars, Bool.or_eq_true, Graphite.onlyStars_iff, Alternatives.onlyStars_iff]
    simp only [Alternatives.expansions, List.mem_append, or_and_right, exists_or]

end

section Match

variable {pcre : Pcre} {p : Graphite} {e subj : Bytes}

theorem graphiteAddExpansion_accepts {wildcards : Bool}
    (hwild : (graphiteHasWildcards e).1 = true → wildcards = true)
    (he : ∀ c ∈ e, graphiteByte c = true) (hsubj : 10 ∉ subj) :
    (graphiteAddExpansion wildcards e).accepts pcre subj = true ↔ Glob e subj := by
  rw [GraphiteResult.accepts, graphiteAddExpansion]
  cases hw : (graphiteHasWildcards e).1 with
  | true =>
    obtain ⟨exec, hcompile, hexec⟩ := pcre.anchored _ (graphiteAtoms_valid he)
    rw [← buildRegexFromGraphite_eq] at hcompile
    simp only [hwild hw, Bool.and_true, if_true, Option.bind_some, hcompile]
    rw [hexec, ← takes_graphiteAtoms hsubj]
    constructor
    · rintro (h | ⟨t, rfl, -⟩)
      · exact h
      · exact absurd (by simp) hsubj
    · exact Or.inl
  | false =>
    have hplain : ∀ c ∈ e, c ≠ 42 ∧ c ≠ 63 := by
      intro c hc
      have hnone := mt hasWildcardsLoop_fst.mpr (ne_true_of_eq_false hw)
      exact ⟨fun h => hnone ⟨c, hc, Or.inl h⟩, fun h => hnone ⟨c, hc, Or.inr (Or.inr h)⟩⟩
    simp only [Bool.and_false, Bool.false_eq_true, if_false, Option.bind_none, beq_iff_eq]
    rw [glob_literal hplain]

theorem Graphite.hasWildcards_of_expansion (h : p.Over graphiteByte) (he : e ∈ p.expansions)
    (hwild : (graphiteHasWildcards e).1 = true) : (graphiteHasWildcards p.text).1 = true := by
  obtain ⟨c, hc, hc'⟩ := hasWildcardsLoop_fst.mp hwild
  exact hasWildcardsLoop_fst.mpr ⟨c, (Graphite.mem_expansions h he hc).2, hc'⟩

def Graphite.impl (p : Graphite) : GraphiteImpl where
  hasWildcards := (graphiteHasWildcards p.text).1
  fixedPrefixLen := (graphiteHasWildcards p.text).2
  results := p.expansions.map (graphiteAddExpansion (graphiteHasWildcards p.text).1)

theorem Graphite.any_accepts (h : p.Over graphiteByte) (hsubj : 10 ∉ subj) :
    p.impl.results.any (GraphiteResult.accepts pcre subj) = true ↔ ∃ e ∈ p.expansions, Glob e subj := by
  rw [impl, List.any_map, List.any_eq_true]
  refine exists_congr fun e => and_congr_right fun he => ?_
  exact graphiteAddExpansion_accepts (hasWildcards_of_expansion h he)
    (fun c hc => (Graphite.mem_expansions h he hc).1) hsubj

theorem Graphite.exists_glob_iff : (∃ e ∈ p.expansions, Glob e subj) ↔
    ∃ e ∈ p.behindPrefix.expansions, ∃ t, subj = p.fixedPrefix ++ t ∧ Glob e t := by
  rw [p.expansions_eq_fixedPrefix]
  simp only [List.mem_map, exists_exists_and_eq_and]
  exact exists_congr fun e => and_congr_right fun _ => glob_append_literal p.fixedPrefix_plain

theorem Graphite.exists_glob_fixedPrefix :
    (∃ e ∈ p.expansions, Glob e p.fixedPrefix) ↔ p.behindPrefix.onlyStars = true := by
  rw [exists_glob_iff, onlyStars_iff]
  refine exists_congr fun e => and_congr_right fun _ => ?_
  rw [← glob_empty]
  constructor
  · rintro ⟨t, ht, hglob⟩
    rw [List.self_eq_append_right] at ht
    rwa [ht] at hglob
  · intro hglob
    exact ⟨[], by simp, hglob⟩

theorem varGraphiteMatch_iff {g : GraphiteImpl} {pattern u : Bytes} (hu : u <+: pattern)
    (hlen : g.fixedPrefixLen = u.length) : varGraphiteMatch pcre g pattern subj = true ↔
      subj = u ∨ u <+: subj ∧ g.results.any (GraphiteResult.accepts pcre subj) = true := by
  have htake : pattern.take u.length = u := (List.prefix_iff_eq_take.mp hu).symm
  rw [varGraphiteMatch, hlen, htake]
  by_cases hpre : u <+: subj
  · obtain ⟨t, rfl⟩ := hpre
    rw [if_neg (by simp)]
    cases t with
    | nil => simp
    | cons x t => simp
  · have hnil : u.length ≠ 0 := by
      intro hnil
      rw [List.length_eq_zero_iff.mp hnil] at hpre
      exact hpre List.nil_prefix
    have hne : subj ≠ u := by
      rintro rfl
      exact hpre List.prefix_rfl
    have hbail : u.length ≠ 0 ∧ (subj.length < u.length ∨ subj.take u.length ≠ u) := by
      refine ⟨hnil, Or.inr fun heq => hpre ?_⟩
      rw [← heq]
      exact List.take_prefix _ _
    rw [if_pos hbail]
    simp [hne, hpre]

theorem Graphite.match_iff (h : p.Over graphiteByte) (hsubj : 10 ∉ subj) :
    varGraphiteMatch pcre p.impl p.text subj = true ↔
      subj = p.fixedPrefix ∨ ∃ e ∈ p.expansions, Glob e subj := by
  have hpre : p.fixedPrefix <+: p.text := by
    rw [p.text_eq_fixedPrefix]
    exact List.prefix_append _ _
  have hlen : p.impl.fixedPrefixLen = p.fixedPrefix.length := by
    rw [impl, graphiteHasWildcards, Graphite.fixedPrefixLen_eq h, Nat.zero_add]
  rw [varGraphiteMatch_iff hpre hlen, Graphite.any_accepts h hsubj]
  refine or_congr_right ?_
  rw [and_iff_right_iff_imp, exists_glob_iff]
  rintro ⟨e, -, t, rfl, -⟩
  exact List.prefix_append _ _

end Match

/-- A subject is matched as the pattern says, but for the one that is the pattern's fixed prefix:
it is always matched. -/
theorem graphite_match_exact_iff {pcre : Pcre} {p : Graphite} {subj : Bytes} (h : p.Over graphiteByte)
    (hnests : p.nestsAtEnd = true) (hsubj : 10 ∉ subj) :
    ∃ fuel g, graphiteExpand fuel p.text = some g ∧
      ((varGraphiteMatch pcre g p.text subj = true ↔ ∃ e ∈ p.expansions, Glob e subj) ↔
        (subj = p.fixedPrefix → p.behindPrefix.onlyStars = true)) := by
  obtain ⟨fuel, hexpand⟩ := Graphite.expandsTo_expansions (Graphite.wellFormed_of_over h) hnests
  refine ⟨fuel, p.impl, by rw [graphiteExpand, hexpand]; rfl, ?_⟩
  rw [Graphite.match_iff h hsubj]
  by_cases hfixed : subj = p.fixedPrefix
  · subst hfixed
    rw [Graphite.exists_glob_fixedPrefix]
    simp
  · simp [hfixed]

/-- acd is matched by a{b,c*}, through the second alternative. -/
theorem graphite_match_star :
    ∃ p : Graphite, p.text = [97, 123, 98, 44, 99, 42, 125] ∧
      ∃ fuel g, graphiteExpand fuel p.text = some g ∧
        varGraphiteMatch takesPcre g p.text [97, 99, 100] = true := by
  let p : Graphite := .char 97 (.group (.more (.char 98 .nil) (.last (.char 99 (.char 42 .nil)))) .nil)
  have hover : p.Over graphiteByte := by
    simp only [p, Graphite.Over, Alternatives.Over, Graphite.isNil]
    decide
  obtain ⟨fuel, g, hg, hmatch⟩ :=
    @graphite_match_exact_iff takesPcre p [97, 99, 100] hover (by decide) (by decide)
  have hfixed : ([97, 99, 100] : Bytes) ≠ p.fixedPrefix := by simp [p, Graphite.fixedPrefix]
  have hexact := hmatch.mpr fun h => absurd h hfixed
  have hmem : ([97, 99, 42] : Bytes) ∈ p.expansions := by decide +kernel
  have hstar : Glob [42] ([100] ++ []) := .star (by simp) (by simp) .nil
  exact ⟨p, by decide, fuel, g, hg, hexact.mpr ⟨_, hmem, .char (by decide) (.char (by decide) hstar)⟩⟩

theorem graphite_match_prefix_alone :
    ∃ g, graphiteExpand 8 [102, 111, 111, 123, 97, 44, 98, 125] = some g ∧
      (∀ pcre : Pcre, varGraphiteMatch pcre g [102, 111, 111, 123, 97, 44, 98, 125] [102, 111, 111] = true) ∧
      (Graphite.char 102 (.char 111
        (.char 111 (.group (.more (.char 97 .nil) (.last (.char 98 .nil))) .nil)))).expansions =
        [[102, 111, 111, 97], [102, 111, 111, 98]] ∧
      ¬∃ e ∈ ([[102, 111, 111, 97], [102, 111, 111, 98]] : List Bytes), Glob e [102, 111, 111] := by
  refine ⟨⟨false, 3, [⟨[102, 111, 111, 97], none⟩, ⟨[102, 111, 111, 98], none⟩]⟩, by decide,
    fun pcre => by simp [varGraphiteMatch], by decide, ?_⟩
  have hplain : ∀ e ∈ ([[102, 111, 111, 97], [102, 111, 111, 98]] : List Bytes),
    ∀ c ∈ e, c ≠ 42 ∧ c ≠ 63 := by
    decide +kernel
  rintro ⟨e, he, hglob⟩
  rw [glob_literal (hplain e he)] at hglob
  subst hglob
  revert he
  decide

end Reconnoiter
