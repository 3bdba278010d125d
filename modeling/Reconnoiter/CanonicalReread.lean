import Reconnoiter.CanonicalRead

/-! What a canonical name says when its tags are decoded once more. A part that
was written plain although it begins with `b"` is decoded a second time. -/

namespace Reconnoiter

def quoted (b : Base64) (y : Bytes) : Bytes := 98 :: 34 :: (b.encode y ++ [34])

/-- A part that reads as the encoding of a part which does have to be encoded. -/
def Requoted (b : Base64) (tf : UInt8 → Bool) (part y : Bytes) : Prop :=
  part = quoted b y ∧ ¬ y.all tf = true

def rereadPart (b : Base64) (tf : UInt8 → Bool) (part : Bytes) : Option Bytes :=
  if Ambiguous tf part then decodePart b part.length part else some part

def rereadTag (b : Base64) (d : Bytes) : Option Bytes :=
  match rereadPart b isTaggableKeyChar (upTo tagSep d),
      rereadPart b isTaggableValueChar (after tagSep d) with
  | some k, some v => if tagSep ∈ k then none else some (k ++ tagSep :: v)
  | _, _ => none

/-- The parts of a decoded tag that its encoding does not keep apart from an
encoded part are such encodings. -/
structure Settled (b : Base64) (d : Bytes) : Prop where
  key : Ambiguous isTaggableKeyChar (upTo tagSep d) →
    ∃ y, Requoted b isTaggableKeyChar (upTo tagSep d) y ∧ tagSep ∉ y
  val : Ambiguous isTaggableValueChar (after tagSep d) →
    ∃ y, Requoted b isTaggableValueChar (after tagSep d) y

section

variable {b : Base64} {tf : UInt8 → Bool} {part y : Bytes}

theorem encodePart_of_ambiguous (h : Ambiguous tf part) : encodePart b tf part = part := by
  rw [encodePart, if_pos h.1]

theorem decodePart_of_length_le {room : Nat} (h : part.length ≤ room) :
    decodePart b room part = decodePart b part.length part := by
  unfold decodePart
  split_ifs with hp hq htwo
  · rfl
  · rfl
  · have hlen : b64Open.length ≤ part.length := (by simpa using hp : b64Open <+: part).length_le
    have hthree : 3 ≤ part.length := by
      simp only [b64Open, List.length_cons, List.length_nil] at hlen
      omega
    have hin : ((part.drop 2).dropLast).length + 3 = part.length := by
      simp only [List.length_dropLast, List.length_drop]
      omega
    rw [Base64.decodeInto_eq (by omega), Base64.decodeInto_eq (by omega)]
  · rfl

theorem decodePart_encodePart_eq {room : Nat} (h : (encodePart b tf part).length ≤ room) :
    decodePart b room (encodePart b tf part) = rereadPart b tf part := by
  unfold rereadPart
  split_ifs with ha
  · rw [encodePart_of_ambiguous ha] at h ⊢
    exact decodePart_of_length_le h
  · exact decodePart_encodePart ha h

theorem length_rereadPart (h : rereadPart b tf part = some y) :
    y.length ≤ part.length ∧ (y.length = part.length → y = part ∧ ¬ Ambiguous tf part) := by
  unfold rereadPart at h
  split_ifs at h with ha
  · have hlt := length_decodePart_lt ha.2 h
    exact ⟨hlt.le, fun he => absurd he hlt.ne⟩
  · obtain rfl := Option.some.inj h
    exact ⟨le_refl _, fun _ => ⟨rfl, ha⟩⟩

theorem rereadPart_of_requoted (h : Requoted b tf part y) (ha : Ambiguous tf part) :
    rereadPart b tf part = some y ∧ encodePart b tf y = encodePart b tf part := by
  obtain ⟨rfl, hy⟩ := h
  constructor
  · rw [rereadPart, if_pos ha, quoted, decodePart_quoted (by simp), b.decode_encode]
  · rw [encodePart_of_ambiguous ha, encodePart, if_neg hy, quoted]

theorem requoted_of_rereadPart (ha : Ambiguous tf part) (hy : ¬ Ambiguous tf y)
    (he : encodePart b tf y = encodePart b tf part) : Requoted b tf part y := by
  rw [encodePart_of_ambiguous ha] at he
  by_cases hp : y.all tf = true
  · rw [encodePart, if_pos hp] at he
    exact absurd (he ▸ ha) hy
  · rw [encodePart, if_neg hp] at he
    exact ⟨he.symm, hp⟩

theorem rereadPart_of_not_ambiguous (h : ¬ Ambiguous tf part) : rereadPart b tf part = some part := by
  rw [rereadPart, if_neg h]

end

theorem rereadTag_eq_some_iff {b : Base64} {d d' : Bytes} :
    rereadTag b d = some d' ↔ ∃ k v, rereadPart b isTaggableKeyChar (upTo tagSep d) = some k ∧
      rereadPart b isTaggableValueChar (after tagSep d) = some v ∧ tagSep ∉ k ∧
      d' = k ++ tagSep :: v := by
  unfold rereadTag
  cases rereadPart b isTaggableKeyChar (upTo tagSep d) with
  | none => simp
  | some k =>
    cases rereadPart b isTaggableValueChar (after tagSep d) with
    | none => simp
    | some v =>
      by_cases hsep : tagSep ∈ k
      · simp [hsep]
      · simp [hsep, eq_comm]

theorem length_rereadTag {b : Base64} {d d' : Bytes} (hd : tagSep ∈ d)
    (h : rereadTag b d = some d') :
    d'.length ≤ d.length ∧ (d'.length = d.length → d' = d ∧
      ¬ Ambiguous isTaggableKeyChar (upTo tagSep d) ∧
      ¬ Ambiguous isTaggableValueChar (after tagSep d)) := by
  obtain ⟨k, v, hk, hv, hsep, rfl⟩ := rereadTag_eq_some_iff.mp h
  obtain ⟨hkle, hkeq⟩ := length_rereadPart hk
  obtain ⟨hvle, hveq⟩ := length_rereadPart hv
  have hlen : d.length = (upTo tagSep d).length + (after tagSep d).length + 1 := by
    have hh := congrArg List.length (eq_upTo_append_after hd)
    simpa only [List.length_append, List.length_cons, Nat.add_assoc] using hh
  simp only [List.length_append, List.length_cons]
  refine ⟨by omega, fun he => ?_⟩
  obtain ⟨hk', hka⟩ := hkeq (by omega)
  obtain ⟨hv', hva⟩ := hveq (by omega)
  refine ⟨?_, hka, hva⟩
  rw [hk', hv']
  exact (eq_upTo_append_after hd).symm

theorem isTagDelimiter_cases {c : UInt8} (h : isTagDelimiter c = true) :
    c = 44 ∨ c = 93 ∨ c = 124 ∨ c = 125 := by
  simpa [isTagDelimiter, or_assoc] using h

theorem encodePart_chars {b : Base64} {tf : UInt8 → Bool} {part : Bytes}
    (htf : ∀ c, isTagDelimiter c = true → tf c = false) :
    ∀ c ∈ encodePart b tf part, isTagDelimiter c = false := by
  intro c hc
  by_contra hd
  have hd' : isTagDelimiter c = true := by simpa using hd
  unfold encodePart at hc
  split_ifs at hc with hp
  · have ht := List.all_eq_true.mp hp c hc
    rw [htf c hd'] at ht
    exact absurd ht (by simp)
  · simp only [List.mem_cons, List.mem_append, List.not_mem_nil, or_false] at hc
    rcases hc with rfl | rfl | hc | rfl
    · exact absurd hd' (by decide)
    · exact absurd hd' (by decide)
    · have he := b.encode_chars _ c hc
      rcases isTagDelimiter_cases hd' with rfl | rfl | rfl | rfl <;> exact absurd he (by decide)
    · exact absurd hd' (by decide)

theorem keyChar_of_delimiter (c : UInt8) (h : isTagDelimiter c = true) :
    isTaggableKeyChar c = false := by
  rcases isTagDelimiter_cases h with rfl | rfl | rfl | rfl <;> decide

theorem valueChar_of_delimiter (c : UInt8) (h : isTagDelimiter c = true) :
    isTaggableValueChar c = false := by
  rcases isTagDelimiter_cases h with rfl | rfl | rfl | rfl <;> decide

structure Writes (b : Base64) (d : Bytes) (t : TagText) : Prop where
  sep : tagSep ∈ d
  key_ne : upTo tagSep d ≠ []
  key : t.key = encodePart b isTaggableKeyChar (upTo tagSep d)
  val : t.val = encodePart b isTaggableValueChar (after tagSep d)

theorem Writes.encodeTag_eq {b : Base64} {d : Bytes} {t : TagText} (h : Writes b d t) :
    encodeTag b maxPairLen d = .ok t.text := by
  rw [eq_upTo_append_after h.sep]
  apply (encodeTag_eq_ok_iff (not_mem_upTo tagSep d)).mpr
  exact ⟨by omega, h.key_ne, by rw [TagText.text, h.key, h.val], t.length_le⟩

theorem exists_writes {b : Base64} {d text : Bytes} (hsep : tagSep ∈ d)
    (h : encodeTag b maxPairLen d = .ok text) : ∃ t, Writes b d t ∧ t.text = text := by
  rw [eq_upTo_append_after hsep, encodeTag_eq_ok_iff (not_mem_upTo tagSep d)] at h
  obtain ⟨_, hne, rfl, hlen⟩ := h
  refine ⟨⟨_, _, colon_not_mem_encodePart b _, fun c hc => ?_, hlen⟩, ⟨hsep, hne, rfl, rfl⟩, rfl⟩
  rcases List.mem_append.mp hc with hk | hv
  · exact encodePart_chars keyChar_of_delimiter c hk
  · exact encodePart_chars valueChar_of_delimiter c hv

theorem Writes.decodeTag_eq {b : Base64} {d : Bytes} {t : TagText} {n : Nat} (h : Writes b d t)
    (hn : t.text.length ≤ n) : decodeTag b n t.text = rereadTag b d := by
  have hlen : t.text.length = t.key.length + t.val.length + 1 := by
    simp [TagText.text, Nat.add_assoc]
  have hk := @decodePart_encodePart_eq b isTaggableKeyChar (upTo tagSep d) n (by rw [← h.key]; omega)
  rw [← h.key] at hk
  unfold rereadTag decodeTag
  rw [TagText.text, upTo_append_cons t.colon_key, after_append_cons t.colon_key, hk]
  cases hr : rereadPart b isTaggableKeyChar (upTo tagSep d) with
  | none => rfl
  | some k =>
    rw [hr] at hk
    have hkl := length_decodePart_le hk
    have hv := @decodePart_encodePart_eq b isTaggableValueChar (after tagSep d) (n - (k.length + 1))
      (by rw [← h.val]; omega)
    rw [← h.val] at hv
    simp only
    rw [if_neg (show ¬ k.length ≥ n by omega), hv]
    cases rereadPart b isTaggableValueChar (after tagSep d) with
    | none => simp
    | some v => rfl

theorem Writes.decodeTagsOne_eq {b : Base64} {d : Bytes} {t : TagText} (h : Writes b d t) :
    decodeTagsOne b t.tag = (rereadTag b d).getD [] := by
  have hroom : t.tag.text.length ≤
      if t.tag.categorySize = t.tag.text.length then t.tag.text.length + 1 else t.tag.text.length := by
    split_ifs <;> omega
  exact congrArg (·.getD []) (h.decodeTag_eq hroom)

theorem isTaggablePart_quoted (b : Base64) (tf : UInt8 → Bool) (y : Bytes) :
    isTaggablePart tf (quoted b y) = true := by
  have hall : ∀ c, isBase64Char c = true → isTaggableB64Char c = true := by
    have hfin : ∀ i : Fin 256, isBase64Char (.ofNat i.val) = true →
        isTaggableB64Char (.ofNat i.val) = true := by decide +kernel
    intro c hc
    simpa using hfin ⟨c.toNat, c.toNat_lt⟩ (by simpa using hc)
  have hin : (b.encode y).all isTaggableB64Char = true :=
    List.all_eq_true.mpr fun c hc => hall c (b.encode_chars y c hc)
  simp [isTaggablePart, quoted, b64Open, List.getLast?_cons, hin]

theorem isTaggablePart_encodePart {b : Base64} {tf : UInt8 → Bool} {part : Bytes}
    (h : Ambiguous tf part → ∃ y, Requoted b tf part y) :
    isTaggablePart tf (encodePart b tf part) = true := by
  by_cases hp : part.all tf = true
  · by_cases hq : b64Open <+: part
    · obtain ⟨y, rfl, _⟩ := h ⟨hp, hq⟩
      rw [encodePart, if_pos hp]
      exact isTaggablePart_quoted b tf y
    · have hq' : b64Open.isPrefixOf part = false := Bool.eq_false_iff.mpr (by simpa using hq)
      rw [encodePart, if_pos hp, isTaggablePart, hq', Bool.and_false, if_neg (by simp)]
      exact hp
  · rw [encodePart, if_neg hp]
    exact isTaggablePart_quoted b tf part

theorem Settled.readable {b : Base64} {d : Bytes} {t : TagText} (hs : Settled b d)
    (h : Writes b d t) : t.Readable := by
  have hkey : isTaggableKey t.key = true := by
    rw [isTaggableKey, h.key]
    exact isTaggablePart_encodePart fun ha => (hs.key ha).imp fun _ hy => hy.1
  have hval : isTaggableValue t.val = true := by
    rw [isTaggableValue, h.val, isTaggablePart_encodePart hs.val, Bool.or_true]
  refine ⟨?_, hkey, hval⟩
  rw [h.key]
  unfold encodePart
  split_ifs
  · exact h.key_ne
  · simp

theorem Settled.rereadTag_eq {b : Base64} {d : Bytes} (hs : Settled b d) (hne : upTo tagSep d ≠ []) :
    ∃ d', rereadTag b d = some d' ∧ ∀ t, Writes b d t → Writes b d' t := by
  obtain ⟨k, hk, hksep, hkne, hke⟩ : ∃ k, rereadPart b isTaggableKeyChar (upTo tagSep d) = some k ∧
      tagSep ∉ k ∧ k ≠ [] ∧
      encodePart b isTaggableKeyChar k = encodePart b isTaggableKeyChar (upTo tagSep d) := by
    by_cases ha : Ambiguous isTaggableKeyChar (upTo tagSep d)
    · obtain ⟨y, hy, hysep⟩ := hs.key ha
      obtain ⟨hr, he⟩ := rereadPart_of_requoted hy ha
      exact ⟨y, hr, hysep, ne_nil_of_not_all hy.2, he⟩
    · exact ⟨_, rereadPart_of_not_ambiguous ha, not_mem_upTo tagSep d, hne, rfl⟩
  obtain ⟨v, hv, hve⟩ : ∃ v, rereadPart b isTaggableValueChar (after tagSep d) = some v ∧
      encodePart b isTaggableValueChar v = encodePart b isTaggableValueChar (after tagSep d) := by
    by_cases ha : Ambiguous isTaggableValueChar (after tagSep d)
    · obtain ⟨y, hy⟩ := hs.val ha
      exact ⟨y, rereadPart_of_requoted hy ha⟩
    · exact ⟨_, rereadPart_of_not_ambiguous ha, rfl⟩
  refine ⟨k ++ tagSep :: v, rereadTag_eq_some_iff.mpr ⟨k, v, hk, hv, hksep, rfl⟩, fun t h => ?_⟩
  refine ⟨by simp, ?_, ?_, ?_⟩
  · rwa [upTo_append_cons hksep]
  · rw [upTo_append_cons hksep, h.key, hke]
  · rw [after_append_cons hksep, h.val, hve]

theorem Writes.parts_eq {b : Base64} {d d' : Bytes} {t t' : TagText} (h : Writes b d t)
    (h' : Writes b d' t') (he : t'.text = t.text) :
    encodePart b isTaggableKeyChar (upTo tagSep d') = encodePart b isTaggableKeyChar (upTo tagSep d) ∧
    encodePart b isTaggableValueChar (after tagSep d') =
      encodePart b isTaggableValueChar (after tagSep d) := by
  have hk := congrArg (upTo 58) he
  have hv := congrArg (after 58) he
  rw [TagText.text, TagText.text, upTo_append_cons t'.colon_key, upTo_append_cons t.colon_key] at hk
  rw [TagText.text, TagText.text, after_append_cons t'.colon_key, after_append_cons t.colon_key] at hv
  rw [← h.key, ← h'.key, ← h.val, ← h'.val]
  exact ⟨hk, hv⟩

theorem settled_of_rereadTag {b : Base64} {d d' : Bytes} {t t' : TagText} (h : Writes b d t)
    (h' : Writes b d' t') (he : t'.text = t.text) (hr : rereadTag b d = some d')
    (hk : ¬ Ambiguous isTaggableKeyChar (upTo tagSep d'))
    (hv : ¬ Ambiguous isTaggableValueChar (after tagSep d')) : Settled b d := by
  obtain ⟨hke, hve⟩ := h.parts_eq h' he
  obtain ⟨k, v, _, _, hsep, rfl⟩ := rereadTag_eq_some_iff.mp hr
  rw [upTo_append_cons hsep] at hke hk
  rw [after_append_cons hsep] at hve hv
  exact ⟨fun ha => ⟨k, requoted_of_rereadPart ha hk hke, hsep⟩,
    fun ha => ⟨v, requoted_of_rereadPart ha hv hve⟩⟩

end Reconnoiter
