import Reconnoiter.CanonicalFixed
import Reconnoiter.CanonicalMeaning

/-! Canonical names with measurement tags put behind them, each in a block of its own, and
what becomes of such a name when it is canonicalized. -/

namespace Reconnoiter

/-- Measurement tags as the filtersets put them behind a name: one block for each tag. -/
def mtBlocks (xs : List TagText) : Bytes := xs.flatMap fun t => mtOpen ++ t.text ++ mtClose

theorem mtBlocks_concat (xs : List TagText) (t : TagText) :
    mtBlocks (xs ++ [t]) = mtBlocks xs ++ mtOpen ++ t.text ++ mtClose := by
  simp [mtBlocks]

theorem length_mtBlocks (xs : List TagText) : 5 * xs.length ≤ (mtBlocks xs).length := by
  induction xs with
  | nil => exact Nat.zero_le _
  | cons t xs ih =>
    simp only [mtBlocks, List.flatMap_cons, List.length_append, mtOpen, mtClose,
      List.length_cons, List.length_nil]
      at ih ⊢
    omega

theorem readBlocks_concat (s : Bytes) (t : TagText) (fuel : Nat) :
    readBlocks (fuel + 1) (s ++ mtOpen ++ t.text ++ mtClose) =
      ⟨(readBlocks fuel s).base, (readBlocks fuel s).stream, t.text :: (readBlocks fuel s).measurement⟩ := by
  have hbar : (124 : UInt8) ∉ t.text ++ [125] := by simpa using t.not_mem_text (c := 124) (by decide)
  have hblock : lastBlock mtOpen mtClose (s ++ mtOpen ++ t.text ++ mtClose) = some (s, t.text) := by
    rw [List.append_assoc (s ++ mtOpen)]
    exact lastBlock_append (by decide) hbar
  have hother : lastBlock stOpen stClose (s ++ mtOpen ++ t.text ++ mtClose) = none :=
    lastBlock_other (by decide)
  have htext : tagTexts t.text = [t.text] := by simpa [TagText.join] using tagTexts_join (l := [t])
  rw [readBlocks, hother, hblock]
  simp only
  rw [htext, List.singleton_append]

theorem readBlocks_append (s : Bytes) (xs : List TagText) (fuel : Nat) :
    readBlocks (fuel + xs.length) (s ++ mtBlocks xs) =
      ⟨(readBlocks fuel s).base, (readBlocks fuel s).stream,
        (xs.map TagText.text).reverse ++ (readBlocks fuel s).measurement⟩ := by
  induction xs using List.reverseRecOn with
  | nil => simp [mtBlocks]
  | append_singleton xs t ih =>
    have hblocks : s ++ mtBlocks (xs ++ [t]) = s ++ mtBlocks xs ++ mtOpen ++ t.text ++ mtClose := by
      rw [mtBlocks_concat]
      simp only [List.append_assoc]
    rw [hblocks, List.length_append, List.length_singleton, ← Nat.add_assoc, readBlocks_concat, ih]
    simp

theorem taggedName_append {name : Bytes} (hname : ¬ HasMarker name) (s m xs : List TagText) :
    taggedName (writtenName name s m ++ mtBlocks xs) =
      ⟨name, s.map TagText.text, (xs.map TagText.text).reverse ++ m.map TagText.text⟩ := by
  cases xs with
  | nil => simpa [mtBlocks] using taggedName_writtenName hname s m
  | cons t xs =>
    have hblocks := length_mtBlocks (t :: xs)
    rw [List.length_cons] at hblocks
    obtain ⟨fuel, hf⟩ : ∃ fuel, (writtenName name s m ++ mtBlocks (t :: xs)).length =
        fuel + 2 + (t :: xs).length := by
      refine ⟨(writtenName name s m ++ mtBlocks (t :: xs)).length - 2 - (t :: xs).length, ?_⟩
      simp only [List.length_append, List.length_cons]
      omega
    rw [taggedName, hf, readBlocks_append, readBlocks_writtenName hname]

theorem TagText.storedAs_text (t : TagText) : storedAs t.text = t.tag := by
  have hcolon : (58 : UInt8) ∈ t.text := by simp [TagText.text]
  rw [storedAs, if_pos hcolon, TagText.tag, TagText.text, upTo_append_cons t.colon_key]

theorem map_storedAs_text (l : List TagText) : (l.map TagText.text).map storedAs = l.map TagText.tag := by
  rw [List.map_map]
  exact List.map_congr_left fun t _ => t.storedAs_text

theorem writtenName_congr {name : Bytes} {s m s' m' : List TagText}
    (hs : s'.map TagText.text = s.map TagText.text)
    (hm : m'.map TagText.text = m.map TagText.text) : writtenName name s' m' = writtenName name s m := by
  rw [writtenName, writtenName, blockText_congr hs, blockText_congr hm]

section Accepted

variable {b : Base64} {q : QSort (id : Bytes → Bytes)} {sha1Hex : Bytes → Bytes} {n n' : Nat}
  {N E E' name : Bytes} {stags mtags xs : List TagText}

/-- The tag texts that canonicalization writes for the given ones. -/
def Rewrites (b : Base64) (q : QSort (id : Bytes → Bytes)) (texts : List Bytes) (l : List TagText) : Prop :=
  List.Forall₂ (Writes b) (sortDedup q (decodeTags b ((texts.map storedAs).take maxTags))) l

/-- Blocks behind a written name are read from the last to the first, so the tags put there come in
reverse and before those of the name. -/
theorem accepted_append (hname : ¬ HasMarker name) (hclean : cleanName name = name)
    (h : canonicalize b q sha1Hex n (writtenName name stags mtags ++ mtBlocks xs) = .ok E) :
    ∃ sT mT, Rewrites b q (stags.map TagText.text) sT ∧
      Rewrites b q ((xs.map TagText.text).reverse ++ mtags.map TagText.text) mT ∧
        E = writtenName name sT mT := by
  have htagged := taggedName_append hname stags mtags xs
  have hlong : NoLongTag (writtenName name stags mtags ++ mtBlocks xs) := by
    intro t ht
    rw [htagged] at ht
    simp only [List.mem_append, List.mem_reverse, List.mem_map] at ht
    rcases ht with ⟨u, -, rfl⟩ | ⟨u, -, rfl⟩ | ⟨u, -, rfl⟩ <;> exact u.length_le
  obtain ⟨sT, mT, hs, hm, hE, -⟩ := accepted_cases h hlong
  rw [htagged] at hs hm hE
  dsimp only at hs hm hE
  rw [hclean] at hE
  exact ⟨sT, mT, hs, hm, hE⟩

theorem covered_of_length_le {texts : List Bytes} (h : texts.length ≤ maxTags) : Covered b texts := by
  intro d hd
  rwa [List.take_of_length_le h]

theorem mem_rewritten {texts : List Bytes} {l : List TagText} (h : Rewrites b q texts l) {d : Bytes} :
    d ∈ sortDedup q (decodeTags b ((texts.map storedAs).take maxTags)) ↔
      d ∈ decodedTags b (texts.take maxTags) := by
  rw [Rewrites, ← List.map_take] at h
  rw [mem_sortDedup_id, ← List.map_take]
  exact mem_decodeTags_iff (ne_nil_of_writes h)

theorem decodedTags_written {tags : List Bytes} {l : List TagText} (h : List.Forall₂ (Writes b) tags l) :
    decodedTags b (l.map TagText.text) = tags.filterMap (rereadTag b) := by
  induction h with
  | nil => rfl
  | @cons d t tags l hd _ ih =>
    have hdecode : decodedTag b t.text = rereadTag b d := hd.decodeTag_eq (by omega)
    simp only [decodedTags, List.map_cons, List.filterMap_cons, hdecode] at ih ⊢
    rw [ih]

theorem FixedName.rewrites_stags (h : FixedName b q N name stags mtags) :
    Rewrites b q (stags.map TagText.text) stags := by
  have hlen : (stags.map TagText.tag).length ≤ maxTags := by simpa using h.stags_le
  rw [Rewrites, map_storedAs_text, List.take_of_length_le hlen]
  exact h.canonical.stags

theorem FixedName.rewrites_mtags (h : FixedName b q N name stags mtags) :
    Rewrites b q (mtags.map TagText.text) mtags := by
  have hlen : (mtags.map TagText.tag).length ≤ maxTags := by simpa using h.mtags_le
  rw [Rewrites, map_storedAs_text, List.take_of_length_le hlen]
  exact h.canonical.mtags

theorem FixedName.stags_eq (h : FixedName b q N name stags mtags) {sT : List TagText}
    (hs : Rewrites b q (stags.map TagText.text) sT) : sT.map TagText.text = stags.map TagText.text :=
  map_text_eq h.rewrites_stags hs

/-- To a name without measurement tags the same tags can be put twice: the second time nothing changes.
-/
theorem FixedName.append_again (h : FixedName b q N name stags []) (hxs : xs.length ≤ maxTags)
    (hread : ∀ d ∈ decodedTags b (xs.map TagText.text), rereadTag b d = some d)
    (hE : canonicalize b q sha1Hex n (N ++ mtBlocks xs) = .ok E)
    (hE' : canonicalize b q sha1Hex n' (E ++ mtBlocks xs) = .ok E') : E' = E ∧ N <+: E := by
  have hname : ¬ HasMarker name := h.canonical.name
  have hlen : (xs.map TagText.text).reverse.length ≤ maxTags := by simpa using hxs
  rw [h.text] at hE
  obtain ⟨sT, mT, hs, hm, rfl⟩ := accepted_append hname h.clean hE
  obtain ⟨sT', mT', hs', hm', rfl⟩ := accepted_append hname h.clean hE'
  rw [List.map_nil, List.append_nil] at hm
  have hsT := h.stags_eq hs
  rw [hsT] at hs'
  -- What was written for the tags is read as the same tags.
  have hmT : ∀ d ∈ decodedTags b (mT.map TagText.text), d ∈ decodedTags b (xs.map TagText.text).reverse := by
    intro d hd
    rw [decodedTags_written hm, List.mem_filterMap] at hd
    obtain ⟨d', hd', hr⟩ := hd
    rw [mem_rewritten hm, List.take_of_length_le hlen] at hd'
    have hfix := hread d' (by simpa [decodedTags] using hd')
    rw [hfix, Option.some.injEq] at hr
    exact hr ▸ hd'
  have hsame : ∀ d, d ∈ decodedTags b ((xs.map TagText.text).reverse ++ mT.map TagText.text) ↔
      d ∈ decodedTags b (xs.map TagText.text).reverse := by
    intro d
    rw [decodedTags, List.filterMap_append, List.mem_append]
    exact or_iff_left_of_imp (hmT d)
  have hcovered : Covered b ((xs.map TagText.text).reverse ++ mT.map TagText.text) := by
    intro d hd
    rw [hsame] at hd
    rw [List.take_append, List.take_of_length_le hlen, decodedTags, List.filterMap_append, List.mem_append]
    exact Or.inl hd
  constructor
  · refine writtenName_congr ?_ (kept_eq hm' hm hsame hcovered (covered_of_length_le hlen))
    rw [h.stags_eq hs', hsT]
  · refine ⟨blockText mtOpen mtClose mT, ?_⟩
    rw [h.text, writtenName, writtenName, blockText_congr hsT, blockText, List.append_nil]

theorem FixedName.append_listed (h : FixedName b q N name stags mtags)
    (hxs : xs.length + mtags.length ≤ maxTags)
    (hlisted : ∀ d ∈ decodedTags b (xs.map TagText.text), d ∈ decodedTags b (mtags.map TagText.text))
    (hE : canonicalize b q sha1Hex n (N ++ mtBlocks xs) = .ok E) : E = N := by
  rw [h.text] at hE ⊢
  obtain ⟨sT, mT, hs, hm, rfl⟩ := accepted_append h.canonical.name h.clean hE
  have hsame : ∀ d, d ∈ decodedTags b ((xs.map TagText.text).reverse ++ mtags.map TagText.text) ↔
      d ∈ decodedTags b (mtags.map TagText.text) := by
    intro d
    rw [decodedTags, List.filterMap_append, List.mem_append]
    refine or_iff_right_of_imp fun hd => hlisted d ?_
    simpa [decodedTags] using hd
  have hlen : ((xs.map TagText.text).reverse ++ mtags.map TagText.text).length ≤ maxTags := by simpa using hxs
  have hmtags : (mtags.map TagText.text).length ≤ maxTags := by simpa using h.mtags_le
  exact writtenName_congr (h.stags_eq hs) (kept_eq hm h.rewrites_mtags hsame (covered_of_length_le hlen)
    (covered_of_length_le hmtags))

def writtenText (b : Base64) (d : Bytes) : Bytes :=
  encodePart b isTaggableKeyChar (upTo tagSep d) ++ 58 :: encodePart b isTaggableValueChar (after tagSep d)

theorem map_text_of_writes {tags : List Bytes} {l : List TagText} (h : List.Forall₂ (Writes b) tags l) :
    l.map TagText.text = tags.map (writtenText b) := by
  induction h with
  | nil => rfl
  | cons hd _ ih => rw [List.map_cons, List.map_cons, ih, TagText.text, hd.key, hd.val, writtenText]

theorem length_join {l : List TagText} (h : l ≠ []) :
    (TagText.join l).length + 1 = ((l.map TagText.text).map fun t => t.length + 1).sum := by
  induction l with
  | nil => exact absurd rfl h
  | cons t l ih =>
    cases l with
    | nil => simp [TagText.join]
    | cons t' l =>
      have hrest := ih (by simp)
      rw [TagText.join_cons_cons, List.map_cons, List.map_cons, List.sum_cons, ← hrest, List.length_append,
        List.length_cons]
      omega

theorem blockText_of_ne_nil {opening closing : Bytes} {l : List TagText} (h : l ≠ []) :
    blockText opening closing l = opening ++ (TagText.join l ++ closing) := by
  cases l with
  | nil => exact absurd rfl h
  | cons t l => rfl

theorem FixedName.perm_of_new (h : FixedName b q N name stags mtags)
    (hlen : mtags.length < maxTags) {x : TagText}
    {d : Bytes} (hx : decodedTag b x.text = some d) (hnew : d ∉ decodedTags b (mtags.map TagText.text))
    {mT : List TagText} (hm : Rewrites b q (x.text :: mtags.map TagText.text) mT) :
    (mT.map TagText.text).Perm (writtenText b d :: mtags.map TagText.text) := by
  have hmtags := h.rewrites_mtags
  have hshort : (mtags.map TagText.text).length ≤ maxTags := by simpa using h.mtags_le
  have hroom : (x.text :: mtags.map TagText.text).length ≤ maxTags := by simpa using hlen
  have hmem : ∀ d', d' ∈ sortDedup q (decodeTags b (((mtags.map TagText.text).map storedAs).take maxTags)) ↔
      d' ∈ decodedTags b (mtags.map TagText.text) := by
    intro d'
    rw [mem_rewritten hmtags, List.take_of_length_le hshort]
  have hperm : (sortDedup q (decodeTags b
    (((x.text :: mtags.map TagText.text).map storedAs).take maxTags))).Perm
      (d :: sortDedup q (decodeTags b (((mtags.map TagText.text).map storedAs).take maxTags))) := by
    rw [List.perm_ext_iff_of_nodup ((sortDedup_strict q _).imp ne_of_lt)
      (List.nodup_cons.mpr ⟨fun hd => hnew ((hmem d).mp hd), (sortDedup_strict q _).imp ne_of_lt⟩)]
    intro d'
    rw [mem_rewritten hm, List.take_of_length_le hroom, List.mem_cons, hmem, decodedTags,
      List.filterMap_cons_some hx, List.mem_cons, decodedTags]
  have htexts := hperm.map (writtenText b)
  rw [← map_text_of_writes hm, List.map_cons, ← map_text_of_writes hmtags] at htexts
  exact htexts

theorem metricParseTags_open {y : Bytes} {c : UInt8} (hst : c ≠ 93) (hmt : c ≠ 125)
    (hmark : HasMarker (y ++ [c])) :
    metricParseTags b sha1Hex (y ++ [c]) = none := by
  have heat : eatTags b sha1Hex (y ++ [c]).length ⟨y ++ [c], [], [], none⟩ =
    .ok ⟨y ++ [c], [], [], none⟩ := by
    rw [List.length_append, List.length_singleton, eatTags, stClose, eatUpTags_other_close hst]
    simp only
    rw [mtClose, eatUpTags_other_close hmt]
  unfold metricParseTags
  rw [heat]
  simp [hmark]

/-- A new tag in a block that is there already makes the name longer, and cut to its old length it is
not closed. -/
theorem FixedName.append_new (h : FixedName b q N name stags mtags) (hne : mtags ≠ [])
    (hlen : mtags.length < maxTags) {x : TagText} {d : Bytes} (hx : decodedTag b x.text = some d)
    (hnew : d ∉ decodedTags b (mtags.map TagText.text))
    (hE : canonicalize b q sha1Hex n (N ++ mtBlocks [x]) = .ok E) :
    N.length < E.length ∧ metricParseTags b sha1Hex (E.take N.length) = none := by
  have hN := h.text
  rw [hN] at hE
  obtain ⟨sT, mT, hs, hm, hET⟩ := accepted_append h.canonical.name h.clean hE
  have hperm := h.perm_of_new hlen hx hnew hm
  have hmT : mT ≠ [] := by
    intro hnil
    rw [hnil, List.map_nil] at hperm
    exact absurd hperm.length_eq (by simp)
  have hjoin : (TagText.join mT).length = (TagText.join mtags).length + 1 + (writtenText b d).length := by
    have hsum := (hperm.map fun t => t.length + 1).sum_eq
    rw [← length_join hmT, List.map_cons, List.sum_cons, ← length_join hne] at hsum
    omega
  have htext : 0 < (writtenText b d).length := by simp [writtenText]
  rw [writtenName, blockText_of_ne_nil hne] at hN
  rw [writtenName, blockText_congr (h.stags_eq hs), blockText_of_ne_nil hmT] at hET
  -- The cut keeps all but the last bytes of the tags.
  obtain ⟨w, c, hw⟩ := List.eq_nil_or_concat'
    ((TagText.join mT).take ((TagText.join mtags).length + 1)) |>.resolve_left
    (by
      intro hnil
      have hzero := congrArg List.length hnil
      rw [List.length_take, List.length_nil] at hzero
      omega)
  have hc : c ∈ TagText.join mT := List.mem_of_mem_take (hw ▸ List.mem_append_right w List.mem_cons_self)
  have hcut : E.take N.length = name ++ blockText stOpen stClose stags ++ mtOpen ++ w ++ [c] := by
    have hlenN : N.length = (name ++ blockText stOpen stClose stags ++ mtOpen).length +
        ((TagText.join mtags).length + 1) := by
      rw [hN]
      simp only [List.length_append, mtClose, List.length_singleton]
      omega
    rw [hET, hlenN, ← List.append_assoc, List.take_length_add_append,
      List.take_append_of_le_length (by omega), hw,
      ← List.append_assoc]
  constructor
  · rw [hN, hET]
    simp only [List.length_append]
    omega
  · rw [hcut]
    refine metricParseTags_open ?_ ?_ ?_
    · rintro rfl
      exact TagText.not_mem_join mT (by decide) (by decide) hc
    · rintro rfl
      exact TagText.not_mem_join mT (by decide) (by decide) hc
    · rw [List.append_assoc, List.append_assoc]
      exact hasMarker_append (Or.inr rfl)

end Accepted

end Reconnoiter
