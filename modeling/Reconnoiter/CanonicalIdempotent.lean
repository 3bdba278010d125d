import Reconnoiter.CanonicalReread

/-! Canonicalizing a canonical name: when the result is the name itself. -/

namespace Reconnoiter

section

variable {b : Base64}

theorem tagsCanonical_writes {tags : List Bytes} {l : List TagText} {tagnmlen : Nat}
    (h : List.Forall₂ (Writes b) tags l) (hlen : (TagText.join l).length ≤ tagnmlen) :
    tagsCanonical b true tags tagnmlen = some (TagText.join l) := by
  induction h generalizing tagnmlen with
  | nil => rfl
  | @cons d t tags l hd htl ih =>
    rw [tagsCanonical, canonicalTag, if_pos rfl, hd.encodeTag_eq]
    simp only
    cases htl with
    | nil =>
      have he : TagText.join [t] = t.text := by simp [TagText.join]
      rw [he] at hlen ⊢
      rw [if_neg (by omega), if_pos rfl]
    | @cons d' t' tags l hd' htl =>
      rw [TagText.join_cons_cons, List.length_append, List.length_cons] at hlen
      rw [if_neg (by omega), if_neg (by simp), if_neg (by omega), ih (by omega),
        TagText.join_cons_cons]
      rfl

theorem exists_writes_of_tagsCanonical {tags : List Bytes} {tagnmlen : Nat} {text : Bytes}
    (hsep : ∀ d ∈ tags, d = [] ∨ tagSep ∈ d)
    (h : tagsCanonical b true tags tagnmlen = some text) :
    ∃ l, List.Forall₂ (Writes b) tags l ∧ text = TagText.join l := by
  induction tags generalizing tagnmlen text with
  | nil =>
    rw [tagsCanonical, Option.some.injEq] at h
    exact ⟨[], List.Forall₂.nil, by rw [← h]; rfl⟩
  | cons d tags ih =>
    rw [tagsCanonical, canonicalTag, if_pos rfl] at h
    cases he : encodeTag b maxPairLen d with
    | error e => simp [he] at h
    | ok first =>
      have hd : tagSep ∈ d := by
        rcases hsep d (by simp) with rfl | hd
        · simp [encodeTag, encodeTagEx] at he
        · exact hd
      obtain ⟨t, ht, rfl⟩ := exists_writes hd he
      simp only [he] at h
      split_ifs at h with hroom htags hcomma
      · refine ⟨[t], ?_, ?_⟩
        · rw [htags]
          exact List.Forall₂.cons ht List.Forall₂.nil
        · simpa [TagText.join] using h.symm
      · obtain ⟨rest, hrest, rfl⟩ := Option.map_eq_some_iff.mp h
        obtain ⟨l, hl, rfl⟩ := ih (fun d' hd' => hsep d' (by simp [hd'])) hrest
        refine ⟨t :: l, List.Forall₂.cons ht hl, ?_⟩
        cases hl with
        | nil => exact absurd rfl htags
        | cons _ _ => rw [TagText.join_cons_cons]

theorem writeBlock_writes {opening closing out : Bytes} {outputLen : Nat} {code : Int}
    {tags : List Bytes} {l : List TagText} (h : List.Forall₂ (Writes b) tags l)
    (hlen : (out ++ blockText opening closing l).length ≤ outputLen) :
    writeBlock b outputLen opening closing code tags out = .ok (out ++ blockText opening closing l) := by
  cases h with
  | nil => simp [writeBlock, blockText]
  | @cons d t tags l hd htl =>
    have hall := List.Forall₂.cons hd htl
    simp only [blockText, List.length_append] at hlen
    have hroom : (TagText.join (t :: l)).length ≤ subSize outputLen (out ++ opening).length := by
      rw [subSize, List.length_append, if_pos (by omega)]
      omega
    rw [writeBlock, if_neg (by simp)]
    simp only
    rw [tagsCanonical_writes hall hroom]
    simp [blockText]

theorem exists_writes_of_writeBlock {opening closing out out' : Bytes} {outputLen : Nat} {code : Int}
    {tags : List Bytes} (hsep : ∀ d ∈ tags, d = [] ∨ tagSep ∈ d)
    (h : writeBlock b outputLen opening closing code tags out = .ok out') :
    ∃ l, List.Forall₂ (Writes b) tags l ∧ out' = out ++ blockText opening closing l := by
  unfold writeBlock at h
  split_ifs at h with hnil
  · obtain rfl := Except.ok.inj h
    exact ⟨[], hnil ▸ List.Forall₂.nil, by simp [blockText]⟩
  · simp only at h
    split at h
    · exact absurd h (by simp)
    · rename_i text ht
      obtain rfl := Except.ok.inj h
      obtain ⟨l, hl, rfl⟩ := exists_writes_of_tagsCanonical hsep ht
      refine ⟨l, hl, ?_⟩
      cases hl with
      | nil => exact absurd rfl hnil
      | cons _ _ => simp [blockText]

theorem decodeTags_sep {tags : List Tag} {d : Bytes} (hd : d ∈ decodeTags b tags) :
    d = [] ∨ tagSep ∈ d := by
  obtain ⟨t, _, rfl⟩ := List.mem_map.mp hd
  unfold decodeTagsOne
  simp only
  generalize (if t.categorySize = t.text.length then t.text.length + 1 else t.text.length) = n
  unfold decodeTag
  split
  · exact Or.inl rfl
  · split_ifs
    · exact Or.inl rfl
    · exact Or.inl rfl
    · split
      · exact Or.inl rfl
      · exact Or.inr (by simp)

end

section

variable {b : Base64} {sha1Hex : Bytes → Bytes}

theorem length_eatUpTags {max : Nat} {input opening closing : Bytes} {st st' : TagScan}
    {r : Option Bytes} (hst : st.tags.length ≤ max)
    (h : eatUpTags b sha1Hex max input st opening closing = .ok (r, st')) : st'.tags.length ≤ max := by
  unfold eatUpTags at h
  split_ifs at h
  · obtain ⟨_, rfl⟩ := Prod.mk.inj (Except.ok.inj h)
    exact hst
  · obtain ⟨_, rfl⟩ := Prod.mk.inj (Except.ok.inj h)
    exact hst
  · split at h
    · obtain ⟨_, rfl⟩ := Prod.mk.inj (Except.ok.inj h)
      exact hst
    · simp only at h
      split at h
      · exact absurd h (by simp)
      · rename_i hb
        obtain ⟨_, rfl⟩ := Prod.mk.inj (Except.ok.inj h)
        exact length_buildTagsLoop hst hb
      · rename_i hb
        obtain ⟨_, rfl⟩ := Prod.mk.inj (Except.ok.inj h)
        exact length_buildTagsLoop hst hb

theorem length_eatTags {fuel : Nat} {e e' : Eaten} (hst : e.stags.length ≤ maxTags)
    (hmt : e.mtags.length ≤ maxTags) (h : eatTags b sha1Hex fuel e = .ok e') :
    e'.stags.length ≤ maxTags ∧ e'.mtags.length ≤ maxTags := by
  induction fuel generalizing e with
  | zero =>
    obtain rfl := Except.ok.inj h
    exact ⟨hst, hmt⟩
  | succ fuel ih =>
    unfold eatTags at h
    split at h
    · exact absurd h (by simp)
    · rename_i he
      exact ih (e := ⟨_, _, _, _⟩) (length_eatUpTags hst he) hmt h
    · rename_i he
      have hst' := length_eatUpTags hst he
      split at h
      · exact absurd h (by simp)
      · rename_i he'
        exact ih (e := ⟨_, _, _, _⟩) hst' (length_eatUpTags hmt he') h
      · rename_i he'
        obtain rfl := Except.ok.inj h
        exact ⟨hst', length_eatUpTags hmt he'⟩

end

structure CanonicalOf (b : Base64) (q : QSort (id : Bytes → Bytes)) (e : Eaten)
    (sTexts mTexts : List TagText) : Prop where
  name : ¬ HasMarker e.name
  clean : cleanName e.name ≠ []
  stags : List.Forall₂ (Writes b) (sortDedup q (decodeTags b e.stags)) sTexts
  mtags : List.Forall₂ (Writes b) (sortDedup q (decodeTags b e.mtags)) mTexts
  length_lt : (writtenName (cleanName e.name) sTexts mTexts).length < maxMetricTaggedName

section

variable {b : Base64} {q : QSort (id : Bytes → Bytes)} {sha1Hex : Bytes → Bytes} {outputLen : Nat}

theorem canonicalOf_of_canonicalize {s c : Bytes} (h : canonicalize b q sha1Hex outputLen s = .ok c) :
    s.count 44 ≤ maxTags ∧ ∃ e stags mtags, eatName b sha1Hex s = .ok e ∧
      CanonicalOf b q e stags mtags ∧ c = writtenName (cleanName e.name) stags mtags := by
  unfold canonicalize canonicalizeEx at h
  simp only [if_true] at h
  split_ifs at h with hout hcommas
  refine ⟨by omega, ?_⟩
  cases he : eatName b sha1Hex s with
  | error f => simp [he, bind, Except.bind] at h
  | ok e =>
    have hsep : ∀ tags : List Tag, ∀ d ∈ sortDedup q (decodeTags b tags), d = [] ∨ tagSep ∈ d :=
      fun tags d hd => decodeTags_sep ((sortDedup_subperm q _).subset hd)
    simp only [he, bind, Except.bind] at h
    split_ifs at h with hmark hempty
    split at h
    · exact absurd h (by simp)
    · rename_i out hst
      obtain ⟨stags, hs, rfl⟩ := exists_writes_of_writeBlock (hsep _) hst
      split at h
      · exact absurd h (by simp)
      · rename_i out hmt
        obtain ⟨mtags, hm, rfl⟩ := exists_writes_of_writeBlock (hsep _) hmt
        split_ifs at h with hlong
        obtain rfl := Except.ok.inj h
        refine ⟨e, stags, mtags, rfl, ⟨hmark, ?_, hs, hm, ?_⟩, rfl⟩
        · rintro hnil
          exact hempty (by rw [hnil]; decide)
        · rw [writtenName]
          omega

theorem canonicalize_of_canonicalOf {s : Bytes} {e : Eaten} {stags mtags : List TagText}
    (hs : s.length ≤ outputLen) (hcommas : s.count 44 ≤ maxTags) (he : eatName b sha1Hex s = .ok e)
    (h : CanonicalOf b q e stags mtags)
    (hlen : (writtenName (cleanName e.name) stags mtags).length ≤ outputLen) :
    canonicalize b q sha1Hex outputLen s = .ok (writtenName (cleanName e.name) stags mtags) := by
  have hpos := List.length_pos_iff.mpr h.clean
  have hshort := h.length_lt
  unfold writtenName at hlen hshort ⊢
  have hlen' : (cleanName e.name ++ blockText stOpen stClose stags).length ≤ outputLen := by
    rw [List.length_append] at hlen
    omega
  have hst := @writeBlock_writes b stOpen stClose _ _ (-6) _ _ h.stags hlen'
  have hmt := @writeBlock_writes b mtOpen mtClose _ _ (-7) _ _ h.mtags hlen
  unfold canonicalize canonicalizeEx
  rw [if_neg (by omega), if_neg (by omega), he]
  simp only [bind, Except.bind, if_true]
  rw [if_neg h.name, if_neg (by omega), hst]
  simp only
  rw [hmt]
  simp only
  rw [if_neg (by omega)]

end

def reread (b : Base64) (d : Bytes) : Bytes := (rereadTag b d).getD []

section

variable {b : Base64} {q : QSort (id : Bytes → Bytes)}

theorem decodeTags_writes {tags : List Bytes} {l : List TagText}
    (h : List.Forall₂ (Writes b) tags l) :
    decodeTags b (l.map TagText.tag) = tags.map (reread b) := by
  induction h with
  | nil => rfl
  | cons hd _ ih =>
    rw [decodeTags, List.map_cons, List.map_cons, List.map_cons, hd.decodeTagsOne_eq]
    exact congrArg _ ih

theorem map_reread_eq {tags tags' : List Bytes} {l l' : List TagText}
    (h : List.Forall₂ (Writes b) tags l) (h' : List.Forall₂ (Writes b) tags' l')
    (he : l'.map TagText.text = l.map TagText.text) :
    tags'.map (reread b) = tags.map (reread b) := by
  induction h generalizing tags' l' with
  | nil =>
    rw [List.map_nil, List.map_eq_nil_iff] at he
    subst he
    cases h'
    rfl
  | @cons d t tags l hd _ ih =>
    cases h' with
    | nil => exact absurd he (by simp)
    | @cons d' t' tags' l' hd' htl' =>
      simp only [List.map_cons, List.cons.injEq] at he
      have hr := hd'.decodeTag_eq (le_refl _)
      rw [he.1, hd.decodeTag_eq (le_refl _)] at hr
      rw [List.map_cons, List.map_cons, ih htl' he.2, reread, reread, hr]

theorem length_reread {d : Bytes} (hd : tagSep ∈ d) :
    (reread b d).length ≤ d.length ∧ ((reread b d).length = d.length → reread b d = d ∧
      ¬ Ambiguous isTaggableKeyChar (upTo tagSep d) ∧
      ¬ Ambiguous isTaggableValueChar (after tagSep d)) := by
  unfold reread
  cases hr : rereadTag b d with
  | none =>
    have hpos := List.length_pos_of_mem hd
    simp only [Option.getD_none, List.length_nil]
    exact ⟨by omega, fun h => absurd h (by omega)⟩
  | some d' => exact length_rereadTag hd hr

/-- Reading shortens what it changes, so a list whose reading is a mere
rearrangement is not changed at all. -/
theorem reread_eq_of_perm {tags : List Bytes} (hsep : ∀ d ∈ tags, tagSep ∈ d)
    (hperm : (tags.map (reread b)).Perm tags) : ∀ d ∈ tags, reread b d = d ∧
      ¬ Ambiguous isTaggableKeyChar (upTo tagSep d) ∧
      ¬ Ambiguous isTaggableValueChar (after tagSep d) := by
  have hsum : (tags.map fun d => (reread b d).length).sum = (tags.map List.length).sum := by
    have hs := (hperm.map List.length).sum_eq
    rwa [List.map_map] at hs
  intro d hd
  obtain ⟨hle, heq⟩ := length_reread (b := b) (hsep d hd)
  apply heq
  by_contra hne
  have hlt := List.sum_lt_sum (fun d => (reread b d).length) List.length
    (fun x hx => (length_reread (hsep x hx)).1) ⟨d, hd, lt_of_le_of_ne hle hne⟩
  exact absurd hsum hlt.ne

theorem settled_of_writes {tags : List Bytes} {l l' : List TagText}
    (h : List.Forall₂ (Writes b) tags l) (h' : List.Forall₂ (Writes b) (tags.map (reread b)) l')
    (he : l'.map TagText.text = l.map TagText.text)
    (hamb : ∀ d ∈ tags.map (reread b), ¬ Ambiguous isTaggableKeyChar (upTo tagSep d) ∧
      ¬ Ambiguous isTaggableValueChar (after tagSep d)) : ∀ d ∈ tags, Settled b d := by
  induction h generalizing l' with
  | nil => simp
  | @cons d t tags l hd _ ih =>
    rw [List.map_cons] at h' hamb
    cases h' with
    | @cons _ t' _ l' hd' htl' =>
      simp only [List.map_cons, List.cons.injEq] at he
      obtain ⟨hk, hv⟩ := hamb (reread b d) (by simp)
      intro x hx
      rcases List.mem_cons.mp hx with rfl | hx
      · have hr : rereadTag b x = some (reread b x) := by
          cases hn : rereadTag b x with
          | none =>
            have hs := hd'.sep
            simp [reread, hn] at hs
          | some y => simp [reread, hn]
        exact settled_of_rereadTag hd hd' he.1 hr hk hv
      · exact ih htl' he.2 (fun y hy => hamb y (by simp only [List.mem_cons, hy, or_true])) x hx

theorem block_stable_iff {tags : List Bytes} {l : List TagText} (hsort : tags.Pairwise (· < ·))
    (h : List.Forall₂ (Writes b) tags l) :
    (∃ l', List.Forall₂ (Writes b) (sortDedup q (decodeTags b (l.map TagText.tag))) l' ∧
      l'.map TagText.text = l.map TagText.text) ↔
    (∀ d ∈ tags, Settled b d) ∧ StrictMonoOn (reread b) {d | d ∈ tags} := by
  rw [decodeTags_writes h, ← pairwise_map_lt_iff (reread b) hsort]
  constructor
  · rintro ⟨l', h', he⟩
    have hlen : (tags.map (reread b)).length ≤ (sortDedup q (tags.map (reread b))).length := by
      have hl := congrArg List.length he
      rw [List.length_map, List.length_map] at hl
      rw [h'.length_eq, List.length_map, h.length_eq, hl]
    have hperm := (sortDedup_subperm q (tags.map (reread b))).perm_of_length_le hlen
    have hmap := map_reread_eq h h' he
    have hsep : ∀ d ∈ sortDedup q (tags.map (reread b)), tagSep ∈ d :=
      ((List.forall₂_and_left _ _).mp (h'.imp fun _ _ ht => ⟨ht.sep, ht⟩)).1
    have hfix := reread_eq_of_perm hsep (by rw [hmap]; exact hperm.symm)
    have hid := (List.map_congr_left (g := id) fun d hd => (hfix d hd).1).trans (List.map_id _)
    have hsame : sortDedup q (tags.map (reread b)) = tags.map (reread b) := hid.symm.trans hmap
    rw [hsame] at h' hfix
    refine ⟨settled_of_writes h h' he fun d hd => (hfix d hd).2, ?_⟩
    rw [← hsame]
    exact sortDedup_strict q _
  · rintro ⟨hset, hmono⟩
    refine ⟨l, ?_, rfl⟩
    rw [sortDedup_eq_self q hmono, List.forall₂_map_left_iff]
    refine ((List.forall₂_and_left _ _).mpr ⟨hset, h⟩).imp fun d t hdt => ?_
    obtain ⟨d', hr, hw⟩ := hdt.1.rereadTag_eq hdt.2.key_ne
    rw [reread, hr]
    exact hw t hdt.2

end

theorem map_text_eq_of_join {l l' : List TagText} (hnil : l' = [] ↔ l = [])
    (h : TagText.join l' = TagText.join l) : l'.map TagText.text = l.map TagText.text := by
  have hsplit : ∀ m : List TagText, m ≠ [] → List.splitOn 44 (TagText.join m) = m.map TagText.text := by
    intro m hm
    apply List.splitOn_intercalate
    · intro text ht
      obtain ⟨t, _, rfl⟩ := List.mem_map.mp ht
      exact t.not_mem_text (by decide)
    · simpa using hm
  by_cases hl : l = []
  · rw [hl, hnil.mpr hl]
  · rw [← hsplit l hl, ← hsplit l' (fun he => hl (hnil.mp he)), h]

theorem blockText_inj {opening rest rest' : Bytes} {cl : UInt8} {l l' : List TagText}
    (hcl : cl ≠ 44) (hdel : isTagDelimiter cl = true) (hnil : l' = [] ↔ l = [])
    (h : blockText opening [cl] l' ++ rest' = blockText opening [cl] l ++ rest) :
    l'.map TagText.text = l.map TagText.text ∧ rest' = rest := by
  cases l with
  | nil =>
    obtain rfl := hnil.mpr rfl
    exact ⟨rfl, h⟩
  | cons t l =>
    cases l' with
    | nil => exact absurd (hnil.mp rfl) (by simp)
    | cons t' l' =>
      simp only [blockText, List.append_assoc, List.append_cancel_left_eq, List.singleton_append] at h
      have hjoin := congrArg (upTo cl) h
      have hrest := congrArg (after cl) h
      rw [upTo_append_cons (TagText.not_mem_join _ hcl hdel),
        upTo_append_cons (TagText.not_mem_join _ hcl hdel)] at hjoin
      rw [after_append_cons (TagText.not_mem_join _ hcl hdel),
        after_append_cons (TagText.not_mem_join _ hcl hdel)] at hrest
      exact ⟨map_text_eq_of_join hnil hjoin, hrest⟩

theorem count_join (l : List TagText) : (TagText.join l).count 44 = l.length - 1 := by
  induction l with
  | nil => rfl
  | cons t l ih =>
    have ht : t.text.count 44 = 0 := List.count_eq_zero_of_not_mem (t.not_mem_text (by decide))
    cases l with
    | nil => simpa [TagText.join] using ht
    | cons t' l =>
      rw [TagText.join_cons_cons, List.count_append, List.count_cons_self, ih, ht]
      simp

theorem count_writtenName (name : Bytes) (stags mtags : List TagText) :
    (writtenName name stags mtags).count 44 =
      name.count 44 + (stags.length - 1) + (mtags.length - 1) := by
  have hblock : ∀ (opening closing : Bytes) (l : List TagText), opening.count 44 = 0 →
      closing.count 44 = 0 → (blockText opening closing l).count 44 = l.length - 1 := by
    intro opening closing l ho hc
    cases l with
    | nil => rfl
    | cons t l => rw [blockText, List.count_append, List.count_append, ho, hc, count_join]; simp
  rw [writtenName, List.count_append, List.count_append, hblock _ _ _ (by decide) (by decide),
    hblock _ _ _ (by decide) (by decide)]

/-- The names whose canonical form is canonical: the decoded tags are settled
and stay in order when read back, and the commas of the name together with
those between the distinct tags of either kind are not too many. -/
structure Stable (b : Base64) (e : Eaten) : Prop where
  stags : ∀ d ∈ decodeTags b e.stags, Settled b d
  stags_mono : StrictMonoOn (reread b) {d | d ∈ decodeTags b e.stags}
  mtags : ∀ d ∈ decodeTags b e.mtags, Settled b d
  mtags_mono : StrictMonoOn (reread b) {d | d ∈ decodeTags b e.mtags}
  commas : e.name.count 44 + ((decodeTags b e.stags).toFinset.card - 1) +
    ((decodeTags b e.mtags).toFinset.card - 1) ≤ maxTags

section

variable {b : Base64} {q : QSort (id : Bytes → Bytes)} {sha1Hex : Bytes → Bytes}

theorem length_le_of_writes {tags : List Tag} {l : List TagText} (hlen : tags.length ≤ maxTags)
    (h : List.Forall₂ (Writes b) (sortDedup q (decodeTags b tags)) l) : l.length ≤ maxTags := by
  have hsub := (sortDedup_subperm q (decodeTags b tags)).length_le
  rw [h.length_eq, decodeTags, List.length_map] at hsub
  omega

theorem readable_of_settled {tags : List Bytes} {l : List TagText}
    (hset : ∀ d ∈ tags, Settled b d) (h : List.Forall₂ (Writes b) tags l) :
    ∀ t ∈ l, t.Readable := by
  induction h with
  | nil => simp
  | @cons d t tags l hd _ ih =>
    intro u hu
    rcases List.mem_cons.mp hu with rfl | hu
    · exact (hset d (by simp)).readable hd
    · exact ih (fun x hx => hset x (by simp [hx])) u hu

theorem nil_iff_of_writes {l l' : List TagText}
    (h' : List.Forall₂ (Writes b) (sortDedup q (decodeTags b (l.map TagText.tag))) l') :
    l' = [] ↔ l = [] := by
  have hiff := sortDedup_eq_nil_iff q (l := decodeTags b (l.map TagText.tag))
  rw [← List.length_eq_zero_iff, h'.length_eq, List.length_eq_zero_iff] at hiff
  rw [hiff, decodeTags, List.map_eq_nil_iff, List.map_eq_nil_iff]

theorem stable_iff {e : Eaten} {sTexts mTexts : List TagText} (h : CanonicalOf b q e sTexts mTexts) :
    Stable b e ↔
      (∃ l, List.Forall₂ (Writes b) (sortDedup q (decodeTags b (sTexts.map TagText.tag))) l ∧
        l.map TagText.text = sTexts.map TagText.text) ∧
      (∃ l, List.Forall₂ (Writes b) (sortDedup q (decodeTags b (mTexts.map TagText.tag))) l ∧
        l.map TagText.text = mTexts.map TagText.text) ∧
      (writtenName (cleanName e.name) sTexts mTexts).count 44 ≤ maxTags := by
  rw [block_stable_iff (sortDedup_strict q _) h.stags, block_stable_iff (sortDedup_strict q _) h.mtags,
    count_writtenName, ← h.stags.length_eq, ← h.mtags.length_eq, length_sortDedup_id,
    length_sortDedup_id, count_cleanName (by decide)]
  simp only [mem_sortDedup_id]
  exact ⟨fun hs => ⟨⟨hs.stags, hs.stags_mono⟩, ⟨hs.mtags, hs.mtags_mono⟩, hs.commas⟩,
    fun hs => ⟨hs.1.1, hs.1.2, hs.2.1.1, hs.2.1.2, hs.2.2⟩⟩

end

theorem blockText_congr {opening closing : Bytes} {l l' : List TagText}
    (h : l'.map TagText.text = l.map TagText.text) :
    blockText opening closing l' = blockText opening closing l := by
  cases l with
  | nil =>
    obtain rfl := List.map_eq_nil_iff.mp h
    rfl
  | cons t l =>
    cases l' with
    | nil => exact absurd h (by simp)
    | cons t' l' => simp only [blockText, TagText.join, h]

/-- Canonicalizing the canonical form of a name gives that form again exactly
when the name's decoded tags and commas are as `Stable` says. -/
theorem canonicalize_idempotent_iff (b : Base64) (q : QSort (id : Bytes → Bytes))
    (sha1Hex : Bytes → Bytes) {outputLen outputLen' : Nat} {s c : Bytes}
    (hc : canonicalize b q sha1Hex outputLen s = .ok c) (hlen : c.length ≤ outputLen') :
    ∃ e, eatName b sha1Hex s = .ok e ∧
      (canonicalize b q sha1Hex outputLen' c = .ok c ↔ Stable b e) := by
  obtain ⟨_, e, sTexts, mTexts, he, hcan, rfl⟩ := canonicalOf_of_canonicalize hc
  refine ⟨e, he, ?_⟩
  rw [stable_iff hcan]
  have hlens := @length_eatTags b sha1Hex _ ⟨s, [], [], some 0⟩ e (by simp) (by simp) he
  have hname : ¬ HasMarker (cleanName e.name) := by
    rintro (h | h)
    · exact hcan.name (Or.inl (infix_of_cleanName (by decide) h))
    · exact hcan.name (Or.inr (infix_of_cleanName (by decide) h))
  obtain ⟨e', he', hmark, hread⟩ := @eatName_writtenName b sha1Hex _ hname sTexts mTexts
    (length_le_of_writes hlens.1 hcan.stags) (length_le_of_writes hlens.2 hcan.mtags)
  constructor
  · intro h
    obtain ⟨hcommas, e₂, sTexts', mTexts', he₂, hcan₂, hceq⟩ := canonicalOf_of_canonicalize h
    rw [he', Except.ok.injEq] at he₂
    obtain rfl := he₂
    obtain rfl := hmark hcan₂.name
    have hs := hcan₂.stags
    have hm := hcan₂.mtags
    rw [cleanName_idem, writtenName, writtenName, List.append_assoc, List.append_assoc,
      List.append_cancel_left_eq] at hceq
    obtain ⟨hst, hrest⟩ := blockText_inj (by decide) (by decide) (nil_iff_of_writes hs) hceq.symm
    have hmt := (@blockText_inj mtOpen [] [] 125 mTexts mTexts' (by decide) (by decide)
      (nil_iff_of_writes hm) (by simpa [mtClose] using hrest)).1
    exact ⟨⟨sTexts', hs, hst⟩, ⟨mTexts', hm, hmt⟩, hcommas⟩
  · rintro ⟨⟨l, hl, hst⟩, ⟨m, hm, hmt⟩, hcommas⟩
    have hset := ((block_stable_iff (sortDedup_strict q _) hcan.stags).mp ⟨l, hl, hst⟩).1
    have hset' := ((block_stable_iff (sortDedup_strict q _) hcan.mtags).mp ⟨m, hm, hmt⟩).1
    have hall : ∀ t ∈ sTexts ++ mTexts, t.Readable := by
      intro t ht
      rcases List.mem_append.mp ht with ht | ht
      · exact readable_of_settled hset hcan.stags t ht
      · exact readable_of_settled hset' hcan.mtags t ht
    obtain rfl := hread hall
    have hsame : writtenName (cleanName (cleanName e.name)) l m =
        writtenName (cleanName e.name) sTexts mTexts := by
      rw [cleanName_idem, writtenName, writtenName, blockText_congr hst, blockText_congr hmt]
    have hcan' : CanonicalOf b q ⟨cleanName e.name, sTexts.map TagText.tag, mTexts.map TagText.tag,
        some 0⟩ l m :=
      ⟨hname, by rw [cleanName_idem]; exact hcan.clean, hl, hm, by rw [hsame]; exact hcan.length_lt⟩
    have hfin := canonicalize_of_canonicalOf hlen hcommas he' hcan' (by rw [hsame]; exact hlen)
    rwa [hsame] at hfin

theorem canonicalize_idempotent_two_tags :
    canonicalize standardBase64 (insertionQSort id) (fun _ => []) 4096
        [109, 124, 83, 84, 91, 98, 58, 121, 44, 97, 58, 120, 93] =
      .ok [109, 124, 83, 84, 91, 97, 58, 120, 44, 98, 58, 121, 93] ∧
    ∃ e, eatName standardBase64 (fun _ => [])
        [109, 124, 83, 84, 91, 98, 58, 121, 44, 97, 58, 120, 93] = .ok e ∧
      (canonicalize standardBase64 (insertionQSort id) (fun _ => []) 4096
          [109, 124, 83, 84, 91, 97, 58, 120, 44, 98, 58, 121, 93] =
        .ok [109, 124, 83, 84, 91, 97, 58, 120, 44, 98, 58, 121, 93] ↔
        Stable standardBase64 e) :=
  ⟨by rfl, @canonicalize_idempotent_iff standardBase64 (insertionQSort id) (fun _ => []) 4096 4096 _ _
    (by rfl) (by decide)⟩

theorem canonicalize_idempotent_fails :
    canonicalize standardBase64 (insertionQSort id) (fun _ => []) 4096
        [109, 124, 83, 84, 91, 98, 34, 89, 105, 74, 97, 98, 84, 108, 50, 73, 103, 61, 61, 34, 93] =
      .ok [109, 124, 83, 84, 91, 98, 34, 90, 109, 57, 118, 34, 58, 93] ∧
    canonicalize standardBase64 (insertionQSort id) (fun _ => []) 4096
        [109, 124, 83, 84, 91, 98, 34, 90, 109, 57, 118, 34, 58, 93] =
      .ok [109, 124, 83, 84, 91, 102, 111, 111, 58, 93] ∧
    ¬ ∀ (s c : Bytes) (n : Nat), s.length ≤ 4095 →
      canonicalize standardBase64 (insertionQSort id) (fun _ => []) n s = .ok c →
      ∀ n' ≥ c.length, canonicalize standardBase64 (insertionQSort id) (fun _ => []) n' c = .ok c := by
  have hfirst : canonicalize standardBase64 (insertionQSort id) (fun _ => []) 4096
      [109, 124, 83, 84, 91, 98, 34, 89, 105, 74, 97, 98, 84, 108, 50, 73, 103, 61, 61, 34, 93] =
    .ok [109, 124, 83, 84, 91, 98, 34, 90, 109, 57, 118, 34, 58, 93] := by rfl
  have hsecond : canonicalize standardBase64 (insertionQSort id) (fun _ => []) 4096
      [109, 124, 83, 84, 91, 98, 34, 90, 109, 57, 118, 34, 58, 93] =
    .ok [109, 124, 83, 84, 91, 102, 111, 111, 58, 93] := by rfl
  refine ⟨hfirst, hsecond, fun h => ?_⟩
  have hc := h _ _ _ (by decide) hfirst 4096 (by decide)
  rw [hsecond] at hc
  exact absurd (Except.ok.inj hc) (by decide)

end Reconnoiter
