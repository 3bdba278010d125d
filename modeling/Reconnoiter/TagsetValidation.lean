import Reconnoiter.MessageDecoder
import Reconnoiter.Compaction

/-! `noit_metric_tagset_init_with_context`: the tags of a string are parsed into
an array, which is sorted, cleared of the tags that a validation function
rejects and of repeated ones, and sized for its canonical text. The lookup keeps
the number of slots that the commas asked for. -/

namespace Reconnoiter

instance : Inhabited StoredTag := ⟨⟨⟨[], 0⟩, []⟩⟩

def executeValidateFunction (ctx : Option (Bytes → Bytes → Bool)) (cat val : Bytes) : Bool :=
  match ctx with
  | some validate => validate cat val
  | none => true

def Tag.accepted (ctx : Option (Bytes → Bytes → Bool)) (t : Tag) : Bool :=
  executeValidateFunction ctx (t.text.take t.categorySize) (t.text.drop t.categorySize)

def tagsCompactWithContext {b : Base64} (q : QSort (StoredTag.compareKey b))
    (ctx : Option (Bytes → Bytes → Bool)) (tags : List StoredTag) : List StoredTag × Nat × Nat :=
  compactInPlace q (fun st => tagCanonicalSize b st.tag) (fun st => st.tag.accepted ctx) tags

structure Tagset where
  tags : List (Option StoredTag)
  canonicalSize : Nat
  deriving DecidableEq, Repr

def tagsetInitWithContext {b : Base64} (q : QSort (StoredTag.compareKey b))
    (ctx : Option (Bytes → Bytes → Bool)) (str : Bytes) : Option Tagset :=
  let tagCount := tagsCount str
  if tagCount = 0 then some ⟨[], 0⟩
  else
    match tagsParseLoop tagCount str.length str [] with
    | none => none
    | some tags =>
      let (arr, parsed, size) := tagsCompactWithContext q ctx tags
      if parsed ≤ 0 then none
      else some ⟨arr.map some ++ List.replicate (tagCount - tags.length) none, size⟩

section

variable {b : Base64} {q : QSort (StoredTag.compareKey b)} {ctx : Option (Bytes → Bytes → Bool)}

def Rewritable (b : Base64) (t : Bytes) : Prop := ∃ text, canonicalTag b false t = .ok text

theorem rewritable_of_tagsCanonical {texts : List Bytes} {room : Nat} {out : Bytes}
    (h : tagsCanonical b false texts room = some out) : ∀ t ∈ texts, Rewritable b t := by
  induction texts generalizing room out with
  | nil => simp
  | cons t texts ih =>
    rw [tagsCanonical] at h
    cases ht : canonicalTag b false t with
    | error e => simp [ht] at h
    | ok text =>
      rw [List.forall_mem_cons]
      refine ⟨⟨text, ht⟩, ?_⟩
      simp only [ht] at h
      split_ifs at h with hroom hnil hsep
      · simp [hnil]
      · obtain ⟨rest, hrest, -⟩ := Option.map_eq_some_iff.mp h
        exact ih hrest

theorem length_tagsCanonical {tags : List Tag} {room : Nat}
    (h : ∀ t ∈ tags, Rewritable b t.text) (hroom : canonicalSize b tags ≤ room) :
    (tagsCanonical b false (tags.map Tag.text) room).map List.length =
      some (canonicalSize b tags) := by
  induction tags generalizing room with
  | nil => rfl
  | cons t tags ih =>
    obtain ⟨⟨text, ht⟩, hrest⟩ := List.forall_mem_cons.mp h
    have hsize : tagCanonicalSize b t = text.length := by rw [tagCanonicalSize, ht]
    cases tags with
    | nil =>
      simp only [canonicalSize, List.map_cons, List.map_nil, List.sum_cons, List.sum_nil, hsize,
        List.length_cons, List.length_nil] at hroom ⊢
      simp only [tagsCanonical, ht]
      rw [if_neg (by omega)]
      simp
    | cons u tags =>
      have hsum : canonicalSize b (t :: u :: tags) =
          text.length + 1 + canonicalSize b (u :: tags) := by
        simp only [canonicalSize, List.map_cons, List.sum_cons, hsize, List.length_cons]
        omega
      rw [hsum] at hroom ⊢
      have hnext := @ih (room - text.length - 1) hrest (by omega)
      obtain ⟨out, hout, hlen⟩ := Option.map_eq_some_iff.mp hnext
      rw [List.map_cons, tagsCanonical, ht]
      dsimp only
      rw [if_neg (by omega), if_neg (by simp), if_neg (by omega), hout]
      simp only [Option.map_some, List.length_append, List.length_cons, hlen]
      congr 1
      omega

/-- The lookup holds the given tags and no others: the accepted tags of the
string, each once, in the order of what they decode to, with the size of their
canonical text. -/
structure IsTagset (b : Base64) (ctx : Option (Bytes → Bytes → Bool)) (str : Bytes) (set : Tagset)
    (tags : List StoredTag) : Prop where
  entries : set.tags = tags.map some
  sorted : tags.Pairwise fun st st' => st.compareKey b < st'.compareKey b
  from_text : ∀ st ∈ tags, ∃ t ∈ tagTexts str, (storedAs t).accepted ctx = true ∧ StoredFrom st t
  complete : ∀ t ∈ tagTexts str, (storedAs t).accepted ctx = true →
    ∃ st ∈ tags, decodeTag b maxPairLen st.tag.text = decodeTag b maxPairLen t
  size : ∀ room ≥ set.canonicalSize,
    (tagsCanonical b false (tags.map (·.tag.text)) room).map List.length = some set.canonicalSize

def AllKept (b : Base64) (ctx : Option (Bytes → Bytes → Bool)) (str : Bytes) : Prop :=
  (∀ t ∈ tagTexts str, t.length ≤ maxPairLen ∧ (storedAs t).accepted ctx = true ∧ Rewritable b t) ∧
    ((tagTexts str).map (decodeTag b maxPairLen)).Nodup

theorem tagsetInitWithContext_cases {str : Bytes} {set : Tagset}
    (h : tagsetInitWithContext q ctx str = some set) :
    (str = [] ∧ set = ⟨[], 0⟩) ∨
    ∃ tags kept rest, List.Forall₂ StoredFrom tags ((tagTexts str).filter (·.length ≤ maxPairLen)) ∧
      kept = squashKept (StoredTag.compareKey b) ((q.run tags).filter (·.tag.accepted ctx)) ∧
      rest.length + kept.length = tags.length ∧
      set = ⟨(kept ++ rest).map some ++
          List.replicate ((tagTexts str).length - tags.length) none,
        canonicalSize b (kept.map StoredTag.tag)⟩ := by
  unfold tagsetInitWithContext at h
  by_cases hne : str = []
  · subst hne
    exact Or.inl ⟨rfl, (Option.some.inj h).symm⟩
  have htexts : tagTexts str = str.splitOn 44 := by rw [tagTexts, if_neg hne]
  have hcount : tagsCount str = (tagTexts str).length := by rw [tagsCount_eq hne, htexts]
  have hpos := List.length_pos_iff.mpr (List.splitOn_ne_nil 44 str)
  rw [← htexts] at hpos
  simp only [hcount, hpos.ne', if_false] at h
  cases hp : tagsParseLoop (tagTexts str).length str.length str [] with
  | none => simp [hp] at h
  | some tags =>
    obtain ⟨new, hout, hnew⟩ := tagsParseLoop_texts le_rfl hp
    obtain rfl : tags = new := hout
    obtain ⟨rest, hrest, hc⟩ := compactInPlace_eq q (fun st => tagCanonicalSize b st.tag)
      (fun st => st.tag.accepted ctx) tags
    have hslots : slotTexts ((tagTexts str).length - ([] : List StoredTag).length) (tagTexts str) =
        (tagTexts str).filter (·.length ≤ maxPairLen) := by
      rw [slotTexts, List.length_nil, Nat.sub_zero]
      exact List.take_of_length_le (List.length_filter_le _ _)
    rw [hslots] at hnew
    simp only [hp, tagsCompactWithContext, hc] at h
    split_ifs at h
    refine Or.inr ⟨tags, _, rest, hnew, rfl, hrest, ?_⟩
    rw [← Option.some.inj h, canonicalSize, List.map_map, List.length_map]
    rfl

theorem text_of_storedFrom {st : StoredTag} {t : Bytes} (h : StoredFrom st t) : st.tag.text = t := by
  rw [h.1]
  rfl

theorem texts_of_storedFrom {tags : List StoredTag} {texts : List Bytes}
    (h : List.Forall₂ StoredFrom tags texts) : tags.map (·.tag.text) = texts := by
  induction h with
  | nil => rfl
  | cons hst _ ih => rw [List.map_cons, text_of_storedFrom hst, ih]

theorem accepted_of_storedFrom {st : StoredTag} {t : Bytes} (h : StoredFrom st t) :
    st.tag.accepted ctx = (storedAs t).accepted ctx := by
  rw [h.1]

theorem rewritable_congr {t u : Bytes} (h : decodeTag b maxPairLen t = decodeTag b maxPairLen u) :
    Rewritable b t ↔ Rewritable b u := by
  simp only [Rewritable, canonicalTag, Bool.false_eq_true, if_false, h]

theorem storedFrom_of_mem {tags : List StoredTag} {texts : List Bytes}
    (h : List.Forall₂ StoredFrom tags texts) {st : StoredTag} (hst : st ∈ tags) :
    st.tag.text ∈ texts ∧ StoredFrom st st.tag.text := by
  obtain ⟨i, hi, rfl⟩ := List.mem_iff_getElem.mp hst
  have hj : i < texts.length := h.length_eq ▸ hi
  have hat := h.get hi hj
  simp only [List.get_eq_getElem] at hat
  rw [text_of_storedFrom hat]
  exact ⟨List.getElem_mem hj, hat⟩

theorem filled_of_map_some {l found : List StoredTag} {n : Nat}
    (h : l.map some ++ List.replicate n none = found.map some) : n = 0 ∧ found = l := by
  have hn : n = 0 := by
    by_contra hne
    have hm : (none : Option StoredTag) ∈ l.map some ++ List.replicate n none :=
      List.mem_append_right _ (List.mem_replicate.mpr ⟨hne, rfl⟩)
    rw [h] at hm
    simp at hm
  rw [hn, List.replicate_zero, List.append_nil] at h
  exact ⟨hn, (List.map_injective_iff.mpr (Option.some_injective _) h).symm⟩

theorem accepted_of_count {str : Bytes} {found : List StoredTag}
    (hlen : found.length = (tagTexts str).length)
    (hsorted : found.Pairwise fun st st' => st.compareKey b < st'.compareKey b)
    (hfrom : ∀ st ∈ found, ∃ t ∈ tagTexts str, (storedAs t).accepted ctx = true ∧
      StoredFrom st t) :
    (∀ t ∈ tagTexts str, (storedAs t).accepted ctx = true) ∧
      ((tagTexts str).map (decodeTag b maxPairLen)).Nodup := by
  have hnodup : (found.map fun st => decodeTag b maxPairLen st.tag.text).Nodup := by
    apply List.pairwise_map.mpr
    refine hsorted.imp fun hlt he => hlt.ne ?_
    rw [StoredTag.compareKey, StoredTag.compareKey, he]
  have hsub : found.map (fun st => decodeTag b maxPairLen st.tag.text) ⊆
      ((tagTexts str).filter fun t => (storedAs t).accepted ctx).map (decodeTag b maxPairLen) := by
    intro d hd
    obtain ⟨st, hst, rfl⟩ := List.mem_map.mp hd
    obtain ⟨t, ht, hacc, hfr⟩ := hfrom st hst
    rw [text_of_storedFrom hfr]
    exact List.mem_map_of_mem (List.mem_filter.mpr ⟨ht, hacc⟩)
  have hsubperm := List.subperm_of_subset hnodup hsub
  have hle := List.length_filter_le (fun t => (storedAs t).accepted ctx) (tagTexts str)
  have hperm := hsubperm.perm_of_length_le (by simpa [hlen] using hle)
  have hfull := hperm.length_eq
  rw [List.length_map, List.length_map, hlen] at hfull
  have hall := List.length_filter_eq_length_iff.mp hfull.symm
  rw [List.filter_eq_self.mpr hall] at hperm
  exact ⟨hall, hperm.nodup_iff.mp hnodup⟩

/-- The lookup is the set of the accepted tags exactly when every slot that the
commas ask for is filled with a tag of its own that can be written. -/
theorem tagset_init_set_iff {str : Bytes} {set : Tagset}
    (hdec : ∀ t ∈ tagTexts str, (decodeTag b maxPairLen t).isSome = true)
    (h : tagsetInitWithContext q ctx str = some set) :
    (∃ tags, IsTagset b ctx str set tags) ↔ AllKept b ctx str := by
  rcases tagsetInitWithContext_cases h with ⟨rfl, rfl⟩ | ⟨tags, kept, rest, hst, hkept, hrest, rfl⟩
  · constructor
    · intro _
      exact ⟨by simp [tagTexts], by simp [tagTexts]⟩
    · intro _
      exact ⟨[], rfl, List.Pairwise.nil, by simp, by simp [tagTexts], fun _ _ => rfl⟩
  have htexts := texts_of_storedFrom hst
  constructor
  · rintro ⟨found, hset⟩
    obtain ⟨hempty, rfl⟩ := filled_of_map_some hset.entries
    have hshort := hst.length_eq
    have hle := List.length_filter_le (fun t : Bytes => decide (t.length ≤ maxPairLen)) (tagTexts str)
    have hfull : ((tagTexts str).filter (·.length ≤ maxPairLen)).length = (tagTexts str).length := by
      omega
    have hfit := List.length_filter_eq_length_iff.mp hfull
    obtain ⟨hacc, hnodup⟩ := accepted_of_count (by rw [List.length_append]; omega) hset.sorted
      hset.from_text
    refine ⟨fun t ht => ⟨by simpa using hfit t ht, hacc t ht, ?_⟩, hnodup⟩
    obtain ⟨out, hout, -⟩ := Option.map_eq_some_iff.mp (hset.size _ le_rfl)
    obtain ⟨st, hm, hd⟩ := hset.complete t ht (hacc t ht)
    exact (rewritable_congr hd).mp (rewritable_of_tagsCanonical hout _ (List.mem_map_of_mem hm))
  · rintro ⟨hall, hnodup⟩
    have hfilter : (tagTexts str).filter (·.length ≤ maxPairLen) = tagTexts str := by
      apply List.filter_eq_self.mpr
      intro t ht
      exact decide_eq_true (hall t ht).1
    rw [hfilter] at hst htexts
    have hmem : ∀ st ∈ q.run tags, st.tag.text ∈ tagTexts str ∧ StoredFrom st st.tag.text := by
      intro st hm
      exact storedFrom_of_mem hst ((q.perm tags).subset hm)
    have hkeys : (tags.map (StoredTag.compareKey b)).Nodup := by
      have hmap : tags.map (StoredTag.compareKey b) =
          ((tagTexts str).map (decodeTag b maxPairLen)).map (·.getD []) := by
        rw [← htexts, List.map_map, List.map_map]
        rfl
      rw [hmap]
      refine hnodup.map_on fun d hd d' hd' he => ?_
      obtain ⟨t, ht, rfl⟩ := List.mem_map.mp hd
      obtain ⟨t', ht', rfl⟩ := List.mem_map.mp hd'
      obtain ⟨x, hx⟩ := Option.isSome_iff_exists.mp (hdec t ht)
      obtain ⟨x', hx'⟩ := Option.isSome_iff_exists.mp (hdec t' ht')
      rw [hx, hx'] at he ⊢
      exact congrArg some he
    have hstrict := q.run_strict hkeys
    have haccepted : (q.run tags).filter (·.tag.accepted ctx) = q.run tags := by
      apply List.filter_eq_self.mpr
      intro st hm
      obtain ⟨ht, hfrom⟩ := hmem st hm
      rw [accepted_of_storedFrom hfrom]
      exact (hall _ ht).2.1
    obtain rfl : kept = q.run tags := by
      rw [hkept, haccepted, squashKept_eq_self hstrict]
    have hlen := (q.perm tags).length_eq
    obtain rfl : rest = [] := List.length_eq_zero_iff.mp (by omega)
    have hcount : (tagTexts str).length - tags.length = 0 := by
      rw [hst.length_eq, Nat.sub_self]
    refine ⟨q.run tags, ⟨?_, hstrict, ?_, ?_, ?_⟩⟩
    · rw [hcount, List.append_nil, List.replicate_zero, List.append_nil]
    · intro st hm
      obtain ⟨ht, hfrom⟩ := hmem st hm
      exact ⟨_, ht, (hall _ ht).2.1, hfrom⟩
    · intro t ht _
      rw [← htexts] at ht
      obtain ⟨st, hm, rfl⟩ := List.mem_map.mp ht
      exact ⟨st, (q.perm tags).symm.subset hm, rfl⟩
    · intro room hroom
      have hw : ∀ t ∈ (q.run tags).map StoredTag.tag, Rewritable b t.text := by
        intro t hm
        obtain ⟨st, hst', rfl⟩ := List.mem_map.mp hm
        exact (hall _ (hmem st hst').1).2.2
      have hwritten := length_tagsCanonical hw hroom
      rwa [List.map_map] at hwritten

end

theorem tagset_init_set_two :
    ∃ tags, IsTagset standardBase64 (some fun cat _ => cat ≠ [99, 58]) [98, 58, 121, 44, 97, 58, 120]
      ⟨[some ⟨⟨[97, 58, 120], 2⟩, []⟩, some ⟨⟨[98, 58, 121], 2⟩, [44, 97, 58, 120]⟩], 7⟩ tags := by
  refine (@tagset_init_set_iff standardBase64 (insertionQSort _) (some fun cat _ => cat ≠ [99, 58])
    [98, 58, 121, 44, 97, 58, 120] _ (by decide +kernel) (by decide +kernel)).mpr ⟨?_, by decide +kernel⟩
  have htexts : tagTexts [98, 58, 121, 44, 97, 58, 120] = [[98, 58, 121], [97, 58, 120]] := by
    decide +kernel
  rw [htexts, List.forall_mem_cons, List.forall_mem_singleton]
  exact ⟨⟨by decide, by decide +kernel, [98, 58, 121], by decide +kernel⟩,
    ⟨by decide, by decide +kernel, [97, 58, 120], by decide +kernel⟩⟩

theorem tagset_init_repeats :
    tagsetInitWithContext (insertionQSort (StoredTag.compareKey standardBase64)) none
        [97, 58, 98, 44, 97, 58, 98] =
      some ⟨[some ⟨⟨[97, 58, 98], 2⟩, [44, 97, 58, 98]⟩, some ⟨⟨[97, 58, 98], 2⟩, []⟩], 3⟩ ∧
    ¬ ∃ tags, IsTagset standardBase64 none [97, 58, 98, 44, 97, 58, 98]
      ⟨[some ⟨⟨[97, 58, 98], 2⟩, [44, 97, 58, 98]⟩, some ⟨⟨[97, 58, 98], 2⟩, []⟩], 3⟩ tags := by
  refine ⟨by decide +kernel, ?_⟩
  rintro ⟨tags, hset⟩
  obtain ⟨-, rfl⟩ := @filled_of_map_some
    [⟨⟨[97, 58, 98], 2⟩, [44, 97, 58, 98]⟩, ⟨⟨[97, 58, 98], 2⟩, []⟩] tags 0 hset.entries
  have hlt := (List.pairwise_cons.mp hset.sorted).1 _ List.mem_cons_self
  exact absurd hlt (by decide +kernel)

end Reconnoiter
