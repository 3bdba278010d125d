import Reconnoiter.GraphiteExpand

/-! Graphite patterns with properly nested braces, and what they stand for. -/

namespace Reconnoiter

mutual

inductive Graphite where
  | nil
  | char (c : UInt8) (rest : Graphite)
  | group (alts : Alternatives) (rest : Graphite)

inductive Alternatives where
  | last (p : Graphite)
  | more (p : Graphite) (alts : Alternatives)

end

mutual

def Graphite.text : Graphite → Bytes
  | .nil => []
  | .char c rest => c :: rest.text
  | .group alts rest => 123 :: (alts.text ++ 125 :: rest.text)

def Alternatives.text : Alternatives → Bytes
  | .last p => p.text
  | .more p alts => p.text ++ 44 :: alts.text

end

mutual

def Graphite.expansions : Graphite → List Bytes
  | .nil => [[]]
  | .char c rest => rest.expansions.map (c :: ·)
  | .group alts rest => alts.expansions.flatMap fun a => rest.expansions.map (a ++ ·)

def Alternatives.expansions : Alternatives → List Bytes
  | .last p => p.expansions
  | .more p alts => p.expansions ++ alts.expansions

end

def Graphite.isNil : Graphite → Bool
  | .nil => true
  | _ => false

mutual

def Graphite.WellFormed (inside : Bool) : Graphite → Prop
  | .nil => True
  | .char c rest => c ≠ 0 ∧ c ≠ 123 ∧ c ≠ 125 ∧ (inside = true → c ≠ 44) ∧ rest.WellFormed inside
  | .group alts rest => alts.WellFormed ∧ rest.WellFormed inside

def Alternatives.WellFormed : Alternatives → Prop
  | .last p => p.isNil = false ∧ p.WellFormed true
  | .more p alts => (p.isNil = false ∧ p.WellFormed true) ∧ alts.WellFormed

end

def Graphite.flat : Graphite → Bool
  | .nil => true
  | .char _ rest => rest.flat
  | .group _ _ => false

mutual

def Graphite.single : Graphite → Bool
  | .nil => true
  | .char _ rest => rest.single
  | .group alts rest => alts.single && rest.single

def Alternatives.single : Alternatives → Bool
  | .last p => p.single
  | .more _ _ => false

end

mutual

def Graphite.nestsAtEnd : Graphite → Bool
  | .nil => true
  | .char _ rest => rest.nestsAtEnd
  | .group alts rest => alts.nestsAtEnd rest.isNil && rest.nestsAtEnd

def Alternatives.nestsAtEnd (ends : Bool) : Alternatives → Bool
  | .last p => p.flat || ends && p.single && p.nestsAtEnd
  | .more p alts => (p.flat || ends && p.single && p.nestsAtEnd) && alts.nestsAtEnd ends

end

def Alternatives.texts : Alternatives → List Bytes
  | .last p => [p.text]
  | .more p alts => p.text :: alts.texts

theorem Alternatives.text_eq (alts : Alternatives) : alts.text = List.intercalate [44] alts.texts := by
  cases alts with
  | last p => simp [text, texts]
  | more p alts =>
    rw [text, texts, alts.text_eq]
    cases alts with
    | last q => simp [texts, List.intercalate]
    | more q alts => simp [texts, List.intercalate]

theorem Graphite.not_mem_text_of_flat {p : Graphite} {inside : Bool} (hwf : p.WellFormed inside)
    (h : p.flat = true) : 123 ∉ p.text ∧ 125 ∉ p.text := by
  match p with
  | .nil => simp [text]
  | .char c rest =>
    obtain ⟨-, ho, hc, -, hrest⟩ := hwf
    have := Graphite.not_mem_text_of_flat hrest h
    simp [text, Ne.symm ho, Ne.symm hc, this.1, this.2]
  | .group _ _ => cases h

mutual

theorem Graphite.comma_not_mem {p : Graphite} (hwf : p.WellFormed true) (h : p.single = true) :
    44 ∉ p.text := by
  match p with
  | .nil => simp [Graphite.text]
  | .char c rest =>
    obtain ⟨-, -, -, hcomma, hrest⟩ := hwf
    have := Graphite.comma_not_mem hrest h
    simp [Graphite.text, Ne.symm (hcomma rfl), this]
  | .group alts rest =>
    rw [Graphite.single, Bool.and_eq_true] at h
    have halts := Alternatives.comma_not_mem hwf.1 h.1
    have hrest := Graphite.comma_not_mem hwf.2 h.2
    simp [Graphite.text, halts, hrest]

theorem Alternatives.comma_not_mem {alts : Alternatives} (hwf : alts.WellFormed) (h : alts.single = true) :
    44 ∉ alts.text := by
  match alts with
  | .last p => exact Graphite.comma_not_mem hwf.2 h
  | .more p alts => cases h

end

mutual

theorem Graphite.closing_text {p : Graphite} {inside : Bool} {depth : Nat}
    {v : Bytes} (hwf : p.WellFormed inside) :
    closing (depth + 1) (p.text ++ v) = (closing (depth + 1) v).map (p.text.length + ·) := by
  match p with
  | .nil => simp [Graphite.text]
  | .char c rest =>
    obtain ⟨-, ho, hc, -, hrest⟩ := hwf
    rw [Graphite.text, List.cons_append, closing, if_neg ho, if_neg hc,
      Graphite.closing_text hrest, Option.map_map]
    congr 1
    funext n
    simp only [Function.comp_apply, List.length_cons]
    omega
  | .group alts rest =>
    rw [Graphite.text, List.cons_append, closing, if_pos rfl, List.append_assoc,
      Alternatives.closing_text hwf.1, List.cons_append, closing, if_neg (by decide),
        if_pos rfl, if_neg (by omega),
      Nat.add_sub_cancel, Graphite.closing_text hwf.2, Option.map_map, Option.map_map, Option.map_map]
    congr 1
    funext n
    simp only [Function.comp_apply, List.length_cons, List.length_append]
    omega

theorem Alternatives.closing_text {alts : Alternatives} {depth : Nat} {v : Bytes} (hwf : alts.WellFormed) :
    closing (depth + 1) (alts.text ++ v) = (closing (depth + 1) v).map (alts.text.length + ·) := by
  match alts with
  | .last p => exact Graphite.closing_text hwf.2
  | .more p alts =>
    rw [Alternatives.text, List.append_assoc, Graphite.closing_text hwf.1.2, List.cons_append, closing,
      if_neg (by decide), if_neg (by decide), Alternatives.closing_text hwf.2, Option.map_map, Option.map_map]
    congr 1
    funext n
    simp only [Function.comp_apply, List.length_append, List.length_cons]
    omega

end

theorem Graphite.text_ne_nil {p : Graphite} (h : p.isNil = false) : p.text ≠ [] := by
  cases p with
  | nil => cases h
  | char c rest => simp [text]
  | group alts rest => simp [text]

theorem Graphite.expansions_of_flat {p : Graphite} (h : p.flat = true) : p.expansions = [p.text] := by
  match p with
  | .nil => rfl
  | .char c rest =>
    have hrest : rest.expansions = [rest.text] := Graphite.expansions_of_flat h
    rw [expansions, hrest, text, List.map_singleton]
  | .group _ _ => cases h

theorem Graphite.single_of_flat {p : Graphite} (h : p.flat = true) : p.single = true := by
  match p with
  | .nil => rfl
  | .char c rest =>
    have hrest : rest.single = true := Graphite.single_of_flat h
    exact hrest
  | .group _ _ => cases h

theorem Graphite.comma_not_mem_of_nests {p : Graphite} {ends : Bool} (hwf : p.WellFormed true)
    (h : (p.flat || ends && p.single && p.nestsAtEnd) = true) : 44 ∉ p.text := by
  rw [Bool.or_eq_true, Bool.and_eq_true, Bool.and_eq_true] at h
  rcases h with hflat | ⟨⟨-, hsingle⟩, -⟩
  · exact Graphite.comma_not_mem hwf (Graphite.single_of_flat hflat)
  · exact Graphite.comma_not_mem hwf hsingle

theorem Alternatives.texts_spec {alts : Alternatives} {ends : Bool} (hwf : alts.WellFormed)
    (h : alts.nestsAtEnd ends = true) : alts.texts ≠ [] ∧ ∀ t ∈ alts.texts, 44 ∉ t ∧ t ≠ [] := by
  match alts with
  | .last p =>
    refine ⟨List.cons_ne_nil _ _, fun t ht => ?_⟩
    rw [texts, List.mem_singleton] at ht
    subst ht
    exact ⟨Graphite.comma_not_mem_of_nests hwf.2 h, Graphite.text_ne_nil hwf.1⟩
  | .more p alts =>
    rw [nestsAtEnd, Bool.and_eq_true] at h
    refine ⟨List.cons_ne_nil _ _, fun t ht => ?_⟩
    rcases List.mem_cons.mp ht with rfl | ht
    · exact ⟨Graphite.comma_not_mem_of_nests hwf.1.2 h.1, Graphite.text_ne_nil hwf.1.1⟩
    · exact (Alternatives.texts_spec hwf.2 h.2).2 t ht

theorem Alternatives.strtok_text {alts : Alternatives} {ends : Bool} (hwf : alts.WellFormed)
    (h : alts.nestsAtEnd ends = true) : strtok alts.text = alts.texts := by
  obtain ⟨hne, htexts⟩ := Alternatives.texts_spec hwf h
  rw [strtok, alts.text_eq, List.splitOn_intercalate _ (fun t ht => (htexts t ht).1) hne, List.filter_eq_self]
  intro t ht
  simpa using (htexts t ht).2

section Calls

variable {pre s suf u v w : Bytes} {fuel : Nat}

theorem expandBraces_plain (h : 123 ∉ s) : expandBraces (fuel + 2) pre s suf =
    if suf = [] then some [pre ++ s ++ suf] else expandBraces (fuel + 1) (pre ++ s) suf [] := by
  have hscan : scanBraces s (fuel + 1) 0 = some none := scanBraces_done (findChar_eq_none h)
  rw [expandBraces, hscan, Option.bind_some]

theorem expandBraces_group (hu : 123 ∉ u) (hclose : closing 1 (v ++ 125 :: w) = some v.length) :
    expandBraces (fuel + 2) pre (u ++ 123 :: (v ++ 125 :: w)) suf =
      expandEach (fun token => expandBraces (fuel + 1) (pre ++ u) token (w ++ suf.dropLast)) (strtok v) := by
  have hdrop : (u ++ 123 :: (v ++ 125 :: w)).drop (u.length + 1) = v ++ 125 :: w := by
    rw [List.drop_append, List.drop_eq_nil_of_le (by omega)]
    simp
  have hrest : (u ++ 123 :: (v ++ 125 :: w)).drop (u.length + 1 + v.length + 1) = w := by
    rw [show u.length + 1 + v.length + 1 = u.length + 1 + (v.length + 1) by omega, ← List.drop_drop, hdrop,
      List.drop_append, List.drop_eq_nil_of_le (by omega)]
    simp
  have hscan : scanBraces (u ++ 123 :: (v ++ 125 :: w)) (fuel + 1) 0 =
      some (some (u.length, u.length + 1 + v.length)) := by
    refine scanBraces_found (findChar_append hu) ?_
    rw [hdrop]
    exact hclose
  rw [expandBraces, hscan, Option.bind_some]
  dsimp only
  rw [hrest, hdrop, List.take_left, show u.length + 1 + v.length - u.length - 1 =
    v.length by omega, List.take_left]

end Calls

def ExpandsTo (pre s suf : Bytes) (out : List Bytes) : Prop := ∃ fuel, expandBraces fuel pre s suf = some out

theorem expandsTo_plain {pre s : Bytes} (h : 123 ∉ s) : ExpandsTo pre s [] [pre ++ s] := by
  refine ⟨2, ?_⟩
  rw [expandBraces_plain h, if_pos rfl, List.append_nil]

theorem ExpandsTo.plain {pre s suf : Bytes} {out : List Bytes} (h : 123 ∉ s) (hne : suf ≠ [])
    (hsuf : ExpandsTo (pre ++ s) suf [] out) : ExpandsTo pre s suf out := by
  obtain ⟨fuel, hfuel⟩ := hsuf
  refine ⟨fuel + 2, ?_⟩
  rw [expandBraces_plain h, if_neg hne]
  exact expandBraces_mono hfuel (Nat.le_succ _)

theorem expandEach_cons {x y token : Bytes} {tokens out outs : List Bytes} (h : ExpandsTo x token y out)
    (hs : ∃ fuel, expandEach (fun token => expandBraces fuel x token y) tokens = some outs) :
    ∃ fuel, expandEach (fun token => expandBraces fuel x token y) (token :: tokens) = some (out ++ outs) := by
  obtain ⟨fuel, h⟩ := h
  obtain ⟨fuel', hs⟩ := hs
  refine ⟨max fuel fuel', ?_⟩
  rw [expandEach, expandBraces_mono h (Nat.le_max_left _ _), Option.bind_some,
    expandEach_mono hs fun _ _ htoken => expandBraces_mono htoken (Nat.le_max_right _ _)]
  rfl

theorem ExpandsTo.group {pre u v w : Bytes} {out : List Bytes} (hu : 123 ∉ u)
    (hclose : closing 1 (v ++ 125 :: w) = some v.length)
    (h : ∃ fuel, expandEach (fun token => expandBraces fuel (pre ++ u) token w) (strtok v) = some out) :
    ExpandsTo pre (u ++ 123 :: (v ++ 125 :: w)) [] out := by
  obtain ⟨fuel, h⟩ := h
  refine ⟨fuel + 2, ?_⟩
  rw [expandBraces_group hu hclose]
  refine expandEach_mono h fun token out htoken => ?_
  rw [List.dropLast_nil, List.append_nil]
  exact expandBraces_mono htoken (Nat.le_succ _)

theorem Graphite.expandsTo_alternative {p rest : Graphite} {x : Bytes} (hwf : p.WellFormed true)
    (hnests : (p.flat || rest.isNil && p.single && p.nestsAtEnd) = true)
    (hp : p.nestsAtEnd = true → ExpandsTo x p.text [] (p.expansions.map (x ++ ·)))
    (hrest : ∀ pre, ExpandsTo pre rest.text [] (rest.expansions.map (pre ++ ·))) :
    ExpandsTo x p.text rest.text (p.expansions.flatMap fun a => rest.expansions.map fun r =>
      x ++ (a ++ r)) := by
  rw [Bool.or_eq_true, Bool.and_eq_true, Bool.and_eq_true] at hnests
  rcases hnests with hflat | ⟨⟨hnil, -⟩, hp'⟩
  · have hplain := (not_mem_text_of_flat hwf hflat).1
    rw [expansions_of_flat hflat, List.flatMap_singleton]
    cases hr : rest.isNil with
    | true =>
      cases rest with
      | nil => simpa [expansions, text] using expandsTo_plain hplain
      | char c rest => cases hr
      | group alts rest => cases hr
    | false =>
      have := hrest (x ++ p.text)
      simp only [List.append_assoc] at this
      exact .plain hplain (text_ne_nil hr) this
  · cases rest with
    | nil =>
      have hthis := hp hp'
      rw [List.map_eq_flatMap] at hthis
      simpa [expansions, text] using hthis
    | char c rest => cases hnil
    | group alts rest => cases hnil

mutual

theorem Graphite.expandsTo {p : Graphite} {inside : Bool} {pre u : Bytes} (hwf : p.WellFormed inside)
    (hnests : p.nestsAtEnd = true) (ho : 123 ∉ u) :
    ExpandsTo pre (u ++ p.text) [] (p.expansions.map (pre ++ u ++ ·)) := by
  match p with
  | .nil => simpa [Graphite.text, Graphite.expansions] using expandsTo_plain ho
  | .char c rest =>
    obtain ⟨-, hc, -, -, hrest⟩ := hwf
    have hu : (123 : UInt8) ∉ u ++ [c] := by simp [ho, Ne.symm hc]
    have hthis : ExpandsTo pre (u ++ [c] ++ rest.text) [] (rest.expansions.map (pre ++ (u ++ [c]) ++ ·)) :=
      Graphite.expandsTo hrest hnests hu
    simpa [Graphite.text, Graphite.expansions, Function.comp_def] using hthis
  | .group alts rest =>
    rw [Graphite.nestsAtEnd, Bool.and_eq_true] at hnests
    have hrest : ∀ pre, ExpandsTo pre rest.text [] (rest.expansions.map (pre ++ ·)) := by
      intro pre
      have hthis : ExpandsTo pre ([] ++ rest.text) [] (rest.expansions.map (pre ++ [] ++ ·)) :=
        Graphite.expandsTo hwf.2 hnests.2 List.not_mem_nil
      simpa using hthis
    have hclose : closing 1 (alts.text ++ 125 :: rest.text) = some alts.text.length := by
      rw [Alternatives.closing_text hwf.1]
      simp [closing]
    have halts := @Alternatives.expandsTo alts rest (pre ++ u) hwf.1 hnests.1 hrest
    rw [← Alternatives.strtok_text hwf.1 hnests.1] at halts
    have hgroup := ExpandsTo.group ho hclose halts
    simpa [Graphite.text, Graphite.expansions, List.map_flatMap, Function.comp_def] using hgroup

theorem Alternatives.expandsTo {alts : Alternatives} {rest : Graphite} {x : Bytes} (hwf : alts.WellFormed)
    (hnests : alts.nestsAtEnd rest.isNil = true)
    (hrest : ∀ pre, ExpandsTo pre rest.text [] (rest.expansions.map (pre ++ ·))) :
    ∃ fuel, expandEach (fun token => expandBraces fuel x token rest.text) alts.texts =
      some (alts.expansions.flatMap fun a => rest.expansions.map fun r => x ++ (a ++ r)) := by
  match alts with
  | .last p =>
    have hp : p.nestsAtEnd = true → ExpandsTo x p.text [] (p.expansions.map (x ++ ·)) := by
      intro hp
      have hthis : ExpandsTo x ([] ++ p.text) [] (p.expansions.map (x ++ [] ++ ·)) :=
        Graphite.expandsTo hwf.2 hp List.not_mem_nil
      simpa using hthis
    have hnone : ∃ fuel, expandEach (fun token => expandBraces fuel x token rest.text) [] = some [] :=
      ⟨0, rfl⟩
    have hlast := expandEach_cons (Graphite.expandsTo_alternative hwf.2 hnests hp hrest) hnone
    rw [List.append_nil] at hlast
    exact hlast
  | .more p alts =>
    rw [Alternatives.nestsAtEnd, Bool.and_eq_true] at hnests
    have hp : p.nestsAtEnd = true → ExpandsTo x p.text [] (p.expansions.map (x ++ ·)) := by
      intro hp
      have hthis : ExpandsTo x ([] ++ p.text) [] (p.expansions.map (x ++ [] ++ ·)) :=
        Graphite.expandsTo hwf.1.2 hp List.not_mem_nil
      simpa using hthis
    have hmore := expandEach_cons (Graphite.expandsTo_alternative hwf.1.2 hnests.1 hp hrest)
      (Alternatives.expandsTo hwf.2 hnests.2 hrest)
    rw [← List.flatMap_append] at hmore
    exact hmore

end

theorem Graphite.expandsTo_expansions {p : Graphite} (hwf : p.WellFormed false)
    (hnests : p.nestsAtEnd = true) :
    ExpandsTo [] p.text [] p.expansions := by
  have h : ExpandsTo [] ([] ++ p.text) [] (p.expansions.map ([] ++ [] ++ ·)) :=
    Graphite.expandsTo hwf hnests List.not_mem_nil
  simpa using h

/-- The strings produced are the expansion of the pattern when its groups nest at its end only. -/
theorem graphite_expand_exact {p : Graphite} (hwf : p.WellFormed false) (hnests : p.nestsAtEnd = true) :
    ∃ fuel out, expandBraces fuel [] p.text [] = some out ∧ ∀ w, w ∈ out ↔ w ∈ p.expansions := by
  obtain ⟨fuel, h⟩ := Graphite.expandsTo_expansions hwf hnests
  exact ⟨fuel, p.expansions, h, fun w => Iff.rfl⟩

theorem graphite_expand_nested_last :
    ∃ p : Graphite, p.text = [120, 123, 97, 44, 98, 125, 46, 123, 99, 44, 123, 100, 125, 125] ∧
      ∃ fuel out, expandBraces fuel [] p.text [] = some out ∧
        ∀ w, w ∈ out ↔ w ∈ ([[120, 97, 46, 99], [120, 97, 46, 100], [120, 98, 46, 99],
          [120, 98, 46, 100]] : List Bytes) := by
  let p : Graphite := .char 120 (.group (.more (.char 97 .nil) (.last (.char 98 .nil)))
    (.char 46 (.group (.more (.char 99 .nil) (.last (.group (.last (.char 100 .nil)) .nil))) .nil)))
  have hwf : p.WellFormed false := by simp [p, Graphite.WellFormed, Alternatives.WellFormed, Graphite.isNil]
  refine ⟨p, by decide, ?_⟩
  have hexact := graphite_expand_exact hwf (by decide)
  have hexp : p.expansions = [[120, 97, 46, 99], [120, 97, 46, 100], [120, 98, 46, 99],
    [120, 98, 46, 100]] := by decide
  rw [hexp] at hexact
  exact hexact

theorem graphite_expand_nested_wrong :
    (∀ fuel out, expandBraces fuel [] [123, 97, 44, 123, 98, 44, 99, 125, 125] [] = some out →
      out = [[97], [123, 98], [99, 125]]) ∧
    (Graphite.group (.more (.char 97 .nil)
      (.last (.group (.more (.char 98 .nil) (.last (.char 99 .nil))) .nil)))
      .nil).expansions = [[97], [98], [99]] ∧
    (∀ fuel out, expandBraces fuel [] [123, 123, 97, 125, 125, 99] [] = some out → out = [[97]]) ∧
    (Graphite.group (.last (.group (.last (.char 97 .nil)) .nil)) (.char 99 .nil)).expansions =
    [[97, 99]] := by
  have hunique : ∀ (s : Bytes) (n : Nat) (r : List Bytes), expandBraces n [] s [] = some r →
      ∀ fuel out, expandBraces fuel [] s [] = some out → out = r := by
    intro s n r hr fuel out hout
    have hmax := expandBraces_mono hout (Nat.le_max_left fuel n)
    rw [expandBraces_mono hr (Nat.le_max_right fuel n)] at hmax
    exact (Option.some.inj hmax).symm
  refine ⟨hunique _ 8 _ (by decide), by decide, hunique _ 8 _ (by decide), by decide⟩

end Reconnoiter
