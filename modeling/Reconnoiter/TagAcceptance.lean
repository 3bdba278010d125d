import Reconnoiter.TagSet

/-! Which texts `noit_metric_tags_parse_one` accepts, and the sizes it stores.
The scan leaves by one exit at the end of the input and by another at a comma,
and the two do not check the same parts. -/

namespace Reconnoiter

def parsedAs (t : Bytes) : ParsedTag :=
  if maxPairLen < t.length then ⟨t.length, true, ⟨[], 0⟩⟩ else ⟨t.length, false, storedAs t⟩

theorem parseOne_of_loop {t rest : Bytes} (hkey : upTo 58 t ≠ [])
    (h : parseOneLoop (t ++ rest) (t ++ rest) 0 0 = some (t.length, (upTo 58 t).length)) :
    parseOne (t ++ rest) = some (parsedAs t) := by
  have hpos := List.length_pos_iff.mpr hkey
  have hcat : (if (upTo 58 t).length ≥ t.length then t.length else (upTo 58 t).length + 1) =
      if 58 ∈ t then (upTo 58 t).length + 1 else t.length := by
    by_cases hm : 58 ∈ t
    · have hlen := congrArg List.length (eq_upTo_append_after hm)
      simp only [List.length_append, List.length_cons] at hlen
      rw [if_neg (by omega), if_pos hm]
    · rw [upTo_eq_self hm, if_pos le_rfl, if_neg hm]
  rw [parseOne, h]
  dsimp only
  rw [if_neg hpos.ne', parsedAs, hcat, List.take_left]
  by_cases hlong : maxPairLen < t.length
  · rw [if_pos hlong, if_pos hlong]
  · rw [if_neg hlong, if_neg hlong]
    rfl

theorem parseOne_at_end {t : Bytes} (hc : 44 ∉ t) :
    parseOne t =
      if upTo 58 t ≠ [] ∧ isTaggableKey (upTo 58 t) = true then some (parsedAs t) else none := by
  by_cases hm : 58 ∈ t
  · obtain ⟨k, v, rfl, hk⟩ := List.eq_append_cons_of_mem hm
    have hkc : 44 ∉ k := fun hx => hc (List.mem_append_left _ hx)
    have hvc : 44 ∉ v := fun hx => hc (List.mem_append_right _ (List.mem_cons_of_mem _ hx))
    have hloop := @parseOneLoop_colon k v [] hk hkc hvc (Or.inl rfl)
    rw [upTo_append_cons hk]
    split_ifs with hok
    · rw [if_pos ⟨hok.1, hok.2, Or.inl rfl⟩] at hloop
      have hparse := @parseOne_of_loop (k ++ 58 :: v) [] (by rw [upTo_append_cons hk]; exact hok.1)
        (by rw [upTo_append_cons hk]; exact hloop)
      rwa [List.append_nil] at hparse
    · rw [if_neg fun hall => hok ⟨hall.1, hall.2.1⟩, List.append_nil] at hloop
      rw [parseOne, hloop]
  · rw [upTo_eq_self hm]
    by_cases hne : t = []
    · subst hne
      rfl
    -- The last byte ends the scan, which has seen no colon.
    obtain ⟨s, x, rfl⟩ := (List.eq_nil_or_concat t).resolve_left hne
    rw [List.concat_eq_append] at hc hm ⊢
    simp only [List.mem_append, List.mem_singleton, not_or] at hc hm
    have hx : ¬ (x = 58 ∧ 0 = 0) := fun hh => hm.2 hh.1.symm
    have hloop : parseOneLoop (s ++ [x]) (s ++ [x]) 0 0 =
        if isTaggableKey (s ++ [x]) = true then some ((s ++ [x]).length, (s ++ [x]).length)
        else none := by
      have htake : (s ++ [x]).take (0 + s.length + 1) = s ++ [x] := List.take_of_length_le (by simp)
      rw [parseOneLoop_plain (by simp) (by simp) hm.1 hc.1, parseOneLoop, if_neg hx,
        if_neg (Ne.symm hc.2), if_pos (by simp), htake]
      cases isTaggableKey (s ++ [x]) <;> simp
    split_ifs with hok
    · rw [if_pos hok.2] at hloop
      have hup : upTo 58 (s ++ [x]) = s ++ [x] := upTo_eq_self (by simp [hm.1, hm.2])
      have hparse := @parseOne_of_loop (s ++ [x]) [] (by rw [hup]; simp)
        (by rw [hup, List.append_nil]; exact hloop)
      rwa [List.append_nil] at hparse
    · rw [if_neg fun hk => hok ⟨by simp, hk⟩] at hloop
      rw [parseOne, hloop]

theorem parseOne_before_comma {t : Bytes} (hc : 44 ∉ t) (rest : Bytes) :
    parseOne (t ++ 44 :: rest) =
      if upTo 58 t ≠ [] ∧ (58 ∈ t → isTaggableKey (upTo 58 t) = true ∧
        isTaggableValue (after 58 t) = true) then some (parsedAs t) else none := by
  by_cases hm : 58 ∈ t
  · obtain ⟨k, v, rfl, hk⟩ := List.eq_append_cons_of_mem hm
    have hkc : 44 ∉ k := fun hx => hc (List.mem_append_left _ hx)
    have hvc : 44 ∉ v := fun hx => hc (List.mem_append_right _ (List.mem_cons_of_mem _ hx))
    have hloop := @parseOneLoop_colon k v (44 :: rest) hk hkc hvc (Or.inr ⟨rest, rfl⟩)
    rw [upTo_append_cons hk, after_append_cons hk]
    split_ifs with hok
    · obtain ⟨htk, htv⟩ := hok.2 hm
      rw [if_pos ⟨hok.1, htk, Or.inr htv⟩] at hloop
      apply parseOne_of_loop
      · rw [upTo_append_cons hk]
        exact hok.1
      · rw [upTo_append_cons hk]
        exact hloop
    · rw [if_neg (by
        rintro ⟨hne, htk, hv⟩
        exact hok ⟨hne, fun _ => ⟨htk, hv.resolve_left (by simp)⟩⟩)] at hloop
      rw [parseOne, hloop]
  · rw [upTo_eq_self hm]
    by_cases hne : t = []
    · subst hne
      simp [parseOne, parseOneLoop]
    · rw [if_pos ⟨hne, fun h => absurd h hm⟩]
      apply parseOne_of_loop
      · rwa [upTo_eq_self hm]
      · rw [upTo_eq_self hm, parseOneLoop_plain (by simp) (by simp) hm hc, parseOneLoop,
          if_neg (by simp), if_pos rfl]
        simp

def WellFormedTag (t : Bytes) : Prop :=
  upTo 58 t ≠ [] ∧ isTaggableKey (upTo 58 t) = true ∧
    (58 ∈ t → isTaggableValue (after 58 t) = true)

def Uniform (t : Bytes) : Prop :=
  (58 ∉ t → t ≠ [] → isTaggableKey t = true) ∧
    (58 ∈ t → upTo 58 t ≠ [] → isTaggableKey (upTo 58 t) = true →
      isTaggableValue (after 58 t) = true)

/-- The parser treats a text alike at the end of the input and before a comma,
and accepts the well-formed ones, exactly when no untaggable part is let pass:
a value at the end, a key alone before a comma. -/
theorem tag_acceptance_uniform_iff {t : Bytes} (hc : 44 ∉ t) (rest : Bytes) :
    (parseOne (t ++ 44 :: rest) = parseOne t ∧
      ((parseOne t).isSome = true ↔ WellFormedTag t)) ↔ Uniform t := by
  rw [parseOne_before_comma hc, parseOne_at_end hc, WellFormedTag, Uniform]
  by_cases hm : 58 ∈ t
  · by_cases hne : upTo 58 t = []
    · simp [hm, hne]
    · cases htk : isTaggableKey (upTo 58 t) with
      | false => simp [hm]
      | true =>
        cases htv : isTaggableValue (after 58 t) with
        | false => simp [hm, hne]
        | true => simp [hm, hne]
  · rw [upTo_eq_self hm]
    by_cases hne : t = []
    · simp [hne]
    · cases htk : isTaggableKey t with
      | false => simp [hm, hne]
      | true => simp [hm, hne]

theorem tag_acceptance_uniform_plain :
    parseOne ([97, 58, 98] ++ 44 :: [99]) = parseOne [97, 58, 98] ∧
      ((parseOne [97, 58, 98]).isSome = true ↔ WellFormedTag [97, 58, 98]) :=
  (@tag_acceptance_uniform_iff [97, 58, 98] (by decide) [99]).mpr
    ⟨fun h => absurd (by decide) h, fun _ _ _ => by decide⟩

theorem tag_acceptance_differs :
    (parseOne [97, 58, 40]).isSome = true ∧ parseOne ([97, 58, 40] ++ 44 :: [98]) = none ∧
      isTaggableValue [40] = false ∧ parseOne [40] = none ∧
      (parseOne ([40] ++ 44 :: [98])).isSome = true ∧ isTaggableKey [40] = false := by
  decide +kernel

def Tag.totalSize (t : Tag) : Nat := t.text.length % 65536

def categoryPart (t : Bytes) : Bytes := if 58 ∈ t then upTo 58 t ++ [58] else t

structure SizedAs (st : StoredTag) (t : Bytes) : Prop where
  total : st.tag.totalSize = t.length
  category : st.tag.categorySize = (categoryPart t).length
  cut_category : (st.tag.text ++ st.rest).take st.tag.categorySize = categoryPart t
  cut_value : ((st.tag.text ++ st.rest).take st.tag.totalSize).drop st.tag.categorySize = after 58 t

theorem categoryPart_append_after (t : Bytes) : categoryPart t ++ after 58 t = t := by
  unfold categoryPart
  split_ifs with hm
  · rw [List.append_assoc]
    exact (eq_upTo_append_after hm).symm
  · rw [after_eq_nil hm, List.append_nil]

theorem categorySize_storedAs (t : Bytes) :
    (storedAs t).categorySize = (categoryPart t).length % 256 := by
  unfold storedAs categoryPart
  split_ifs with hm
  · rw [List.length_append, List.length_singleton]
  · rfl

theorem sizedAs_iff {st : StoredTag} {t : Bytes} (hlen : t.length ≤ maxPairLen)
    (h : st.tag = storedAs t) : SizedAs st t ↔ (categoryPart t).length < 256 := by
  have hsplit := categoryPart_append_after t
  have hcat : st.tag.categorySize = (categoryPart t).length % 256 := by
    rw [h, categorySize_storedAs]
  have htotal : st.tag.totalSize = t.length := by
    rw [h]
    exact Nat.mod_eq_of_lt (by simp only [maxPairLen] at hlen; exact lt_of_le_of_lt hlen (by decide))
  have htext : st.tag.text = t := by rw [h]; rfl
  constructor
  · intro hs
    have hc := hs.category
    rw [hcat] at hc
    omega
  · intro hlt
    rw [Nat.mod_eq_of_lt hlt] at hcat
    refine ⟨htotal, hcat, ?_, ?_⟩
    · have hpre : t ++ st.rest = categoryPart t ++ (after 58 t ++ st.rest) := by
        rw [← List.append_assoc, hsplit]
      rw [hcat, htext, hpre, List.take_left]
    · have hdrop : (categoryPart t ++ after 58 t).drop (categoryPart t).length = after 58 t :=
        List.drop_left
      rw [hsplit] at hdrop
      rw [htotal, hcat, htext, List.take_left, hdrop]

theorem forall₂_iff_forall {α β : Type*} {R S : α → β → Prop} {P : β → Prop} {l : List α}
    {u : List β} (h : List.Forall₂ S l u) (hiff : ∀ a, ∀ b ∈ u, S a b → (R a b ↔ P b)) :
    List.Forall₂ R l u ↔ ∀ b ∈ u, P b := by
  induction h with
  | nil => simp
  | @cons a b l u hab _ ih =>
    rw [List.forall₂_cons, List.forall_mem_cons, hiff a b List.mem_cons_self hab,
      ih fun x y hy => hiff x y (List.mem_cons_of_mem _ hy)]

theorem upTo_comma {t rest : Bytes} (ht : 44 ∉ t) (hrest : rest = [] ∨ ∃ r, rest = 44 :: r) :
    upTo 44 (t ++ rest) = t := by
  rcases hrest with rfl | ⟨r, rfl⟩
  · rw [List.append_nil, upTo_eq_self ht]
  · exact upTo_append_cons ht r

/-- The sizes of a tag that is not too long are exact when its category, with
the colon, is shorter than 256 bytes, and not otherwise; this holds of the
first tag of any text, and of the slots that parsing a whole string fills. -/
theorem stored_sizes_exact_iff (str : Bytes) :
    (∀ r, parseOne str = some r → r.tooLong = false →
      (SizedAs ⟨r.tag, str.drop r.size⟩ (upTo 44 str) ↔
        (categoryPart (upTo 44 str)).length < 256)) ∧
    ∀ tagCount tags, tagsParseLoop tagCount str.length str [] = some tags →
      (List.Forall₂ SizedAs tags (slotTexts tagCount (tagTexts str)) ↔
        ∀ t ∈ slotTexts tagCount (tagTexts str), (categoryPart t).length < 256) := by
  constructor
  · intro r hp hshort
    by_cases hne : str = []
    · rw [hne] at hp
      cases hp
    obtain ⟨t, rest, rfl, ht, htexts⟩ := tagTexts_split hne
    have hrest : rest = [] ∨ ∃ r, rest = 44 :: r := htexts.imp And.left fun ⟨r, hr, _⟩ => ⟨r, hr⟩
    obtain ⟨-, -, -, hr⟩ := parseOne_piece ht hrest hp
    rw [upTo_comma ht hrest]
    by_cases hlong : maxPairLen < t.length
    · rw [if_pos hlong, hshort] at hr
      cases hr
    · rw [if_neg hlong] at hr
      exact sizedAs_iff (Nat.not_lt.mp hlong) hr.2
  · intro tagCount tags h
    obtain ⟨new, rfl, hnew⟩ := tagsParseLoop_texts le_rfl h
    rw [List.length_nil, Nat.sub_zero] at hnew
    have hshort : ∀ t ∈ slotTexts tagCount (tagTexts str), t.length ≤ maxPairLen := by
      intro t ht
      have hm : t ∈ (tagTexts str).filter fun t => t.length ≤ maxPairLen := List.mem_of_mem_take ht
      simpa using (List.mem_filter.mp hm).2
    exact forall₂_iff_forall hnew fun st t ht hst => sizedAs_iff (hshort t ht) hst.1

theorem stored_sizes_exact_two :
    List.Forall₂ SizedAs [⟨storedAs [97, 58, 98], [44, 99]⟩, ⟨storedAs [99], []⟩]
      (slotTexts 2 (tagTexts [97, 58, 98, 44, 99])) :=
  ((stored_sizes_exact_iff [97, 58, 98, 44, 99]).2 2 _ (by decide +kernel)).mpr (by decide +kernel)

theorem stored_sizes_wrap :
    ∃ r, parseOne (List.replicate 255 97 ++ [58]) = some r ∧ r.tooLong = false ∧
      r.tag.text = List.replicate 255 97 ++ [58] ∧
      (categoryPart r.tag.text).length = 256 ∧ r.tag.categorySize = 0 := by
  refine ⟨parsedAs (List.replicate 255 97 ++ [58]), ?_, ?_, ?_, ?_, ?_⟩
  · rw [parseOne_at_end (by decide +kernel), if_pos (by decide +kernel)]
  all_goals decide +kernel

end Reconnoiter
