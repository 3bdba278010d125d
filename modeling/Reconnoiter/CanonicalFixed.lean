import Reconnoiter.CanonicalIdempotent
import Reconnoiter.FiltersetMetric

/-! Names that canonicalization leaves as they are, and what `noit_metric_parse_tags` finds
in them. -/

namespace Reconnoiter

section Written

variable {name name' : Bytes} {stags mtags stags' mtags' : List TagText}

theorem hasMarker_append {opening rest : Bytes} (h : opening = stOpen ∨ opening = mtOpen) :
    HasMarker (name ++ (opening ++ rest)) := by
  have hinfix : opening <:+: name ++ (opening ++ rest) := ⟨name, rest, by simp⟩
  rcases h with rfl | rfl
  · exact Or.inl hinfix
  · exact Or.inr hinfix

theorem hasMarker_of_overlap {p rest rest' opening : Bytes} (h : opening = stOpen ∨ opening = mtOpen)
    (hp : p ≠ []) (hrest : rest' = [] ∨ rest'.head? = some 124) (he : opening ++ rest = p ++ rest') :
    ∃ p', p = opening ++ p' := by
  rcases h with rfl | rfl <;>
  · rcases p with _ | ⟨a, _ | ⟨b, _ | ⟨c, _ | ⟨d, p'⟩⟩⟩⟩
    · exact absurd rfl hp
    all_goals simp only [stOpen, mtOpen, List.cons_append, List.nil_append, List.cons.injEq] at he
    · rcases hrest with rfl | hrest
      · simp at he
      · simp [← he.2] at hrest
    · rcases hrest with rfl | hrest
      · simp at he
      · simp [← he.2.2] at hrest
    · rcases hrest with rfl | hrest
      · simp at he
      · simp [← he.2.2.2] at hrest
    · obtain ⟨rfl, rfl, rfl, rfl, -⟩ := he
      exact ⟨p', rfl⟩

theorem bareName_length_le (hname : ¬ HasMarker name')
    (h : writtenName name' stags' mtags' = writtenName name stags mtags) : name'.length ≤ name.length := by
  have hshort : name'.length ≤ (writtenName name' stags' mtags').length := by simp [writtenName]
  rcases writtenName_cases name stags mtags with ⟨-, -, he⟩ | ⟨opening, rest, hopening, he⟩
  · rwa [h, he] at hshort
  rw [he] at h
  by_contra hlong
  obtain ⟨rest', hrest', he'⟩ : ∃ rest', (rest' = [] ∨ rest'.head? = some 124) ∧
      writtenName name' stags' mtags' = name' ++ rest' := by
    rcases writtenName_cases name' stags' mtags' with ⟨-, -, he'⟩ | ⟨opening', rest', hopening', he'⟩
    · exact ⟨[], Or.inl rfl, by rw [he', List.append_nil]⟩
    · refine ⟨opening' ++ rest', Or.inr ?_, he'⟩
      rcases hopening' with rfl | rfl <;> rfl
  rw [he'] at h
  obtain ⟨p, rfl⟩ : name <+: name' :=
    List.prefix_of_prefix_length_le ⟨opening ++ rest, rfl⟩ ⟨rest', h⟩ (by omega)
  rw [List.append_assoc, List.append_cancel_left_eq] at h
  have hp : p ≠ [] := by
    rintro rfl
    simp at hlong
  obtain ⟨p', rfl⟩ := hasMarker_of_overlap hopening hp hrest' h.symm
  exact hname (hasMarker_append hopening)

theorem bareName_unique (hname : ¬ HasMarker name) (hname' : ¬ HasMarker name')
    (h : writtenName name' stags' mtags' = writtenName name stags mtags) : name' = name := by
  have hlen : name'.length = name.length :=
    Nat.le_antisymm (bareName_length_le hname' h) (bareName_length_le hname h.symm)
  unfold writtenName at h
  rw [List.append_assoc, List.append_assoc] at h
  exact (List.append_inj h hlen).1

end Written

/-- The parts of a name that canonicalization leaves as it is. -/
structure FixedName (b : Base64) (q : QSort (id : Bytes → Bytes)) (N name : Bytes)
    (stags mtags : List TagText) : Prop where
  text : N = writtenName name stags mtags
  clean : cleanName name = name
  canonical : CanonicalOf b q ⟨name, stags.map TagText.tag, mtags.map TagText.tag, some 0⟩ stags mtags
  readable : ∀ t ∈ stags ++ mtags, t.Readable
  stags_le : stags.length ≤ maxTags
  mtags_le : mtags.length ≤ maxTags

section Fixed

variable {b : Base64} {q : QSort (id : Bytes → Bytes)} {sha1Hex : Bytes → Bytes} {outputLen : Nat}
  {N name : Bytes} {stags mtags : List TagText}

theorem readable_of_writes {l : List TagText}
    (h : List.Forall₂ (Writes b) (sortDedup q (decodeTags b (l.map TagText.tag))) l) : ∀ t ∈ l, t.Readable :=
  readable_of_settled ((block_stable_iff (sortDedup_strict q _) h).mp ⟨l, h, rfl⟩).1 h

/-- Every name that is its own canonical form has such parts. -/
theorem exists_fixedName (h : canonicalize b q sha1Hex outputLen N = .ok N) :
    ∃ name stags mtags, FixedName b q N name stags mtags := by
  obtain ⟨-, e, stags, mtags, he, hcan, htext⟩ := canonicalOf_of_canonicalize h
  have hlens := @length_eatTags b sha1Hex _ ⟨N, [], [], some 0⟩ e (by simp) (by simp) he
  have hst := length_le_of_writes hlens.1 hcan.stags
  have hmt := length_le_of_writes hlens.2 hcan.mtags
  have hname : ¬ HasMarker (cleanName e.name) := by
    rintro (h | h)
    · exact hcan.name (Or.inl (infix_of_cleanName (by decide) h))
    · exact hcan.name (Or.inr (infix_of_cleanName (by decide) h))
  obtain ⟨e', he', hmark, -⟩ := @eatName_writtenName b sha1Hex _ hname stags mtags hst hmt
  rw [← htext, he, Except.ok.injEq] at he'
  subst he'
  rcases e with ⟨name, st, mt, repl⟩
  have hparts := hmark hcan.name
  simp only [Eaten.mk.injEq] at hparts
  obtain ⟨hclean, rfl, rfl, rfl⟩ := hparts
  refine ⟨name, stags, mtags, ?_, hclean.symm, hcan, ?_, hst, hmt⟩
  · rw [htext]
    dsimp only
    rw [← hclean]
  · intro t ht
    rcases List.mem_append.mp ht with ht | ht
    · exact readable_of_writes hcan.stags t ht
    · exact readable_of_writes hcan.mtags t ht

theorem FixedName.length_lt (h : FixedName b q N name stags mtags) : N.length < maxMetricTaggedName := by
  have hlen := h.canonical.length_lt
  dsimp only at hlen
  rwa [h.clean, ← h.text] at hlen

theorem FixedName.parse (h : FixedName b q N name stags mtags) :
    metricParseTags b sha1Hex N = some ⟨name, stags.map TagText.tag, mtags.map TagText.tag, none⟩ := by
  have hname : ¬ HasMarker name := h.canonical.name
  have hlen := h.length_lt
  obtain ⟨e, he, -, hread⟩ := @eatTags_writtenName_length b sha1Hex name none
    hname stags mtags h.stags_le h.mtags_le
  obtain rfl := hread h.readable
  rw [← h.text] at he
  simp [metricParseTags, Nat.not_lt.mpr hlen.le, he, hname]

end Fixed

end Reconnoiter
