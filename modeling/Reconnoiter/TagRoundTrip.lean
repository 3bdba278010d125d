import Reconnoiter.TagCodec

/-! Encoding and decoding a tag, part by part. A part that is plain and yet
begins with `b"` is written as it is and read back as base64; it is the only
obstacle to a round trip. -/

namespace Reconnoiter

/-- A part in the two classifications at once: plain for the encoder, base64 for the decoder. -/
def Ambiguous (tf : UInt8 → Bool) (part : Bytes) : Prop :=
  part.all tf = true ∧ b64Open <+: part

instance (tf : UInt8 → Bool) (part : Bytes) : Decidable (Ambiguous tf part) :=
  inferInstanceAs (Decidable (_ ∧ _))

def encodePart (b : Base64) (tf : UInt8 → Bool) (part : Bytes) : Bytes :=
  if part.all tf then part else 98 :: 34 :: (b.encode part ++ [34])

theorem needsB64_false (tf : UInt8 → Bool) (part : Bytes) :
    needsB64 tf false part = !part.all tf := by
  simp [needsB64, List.any_eq_not_all_not]

theorem length_encodePart (b : Base64) (tf : UInt8 → Bool) (part : Bytes) :
    (encodePart b tf part).length = partLen (!part.all tf) part := by
  by_cases h : part.all tf = true
  · simp [encodePart, partLen, h]
  · simp [encodePart, partLen, h, b.length_encode]

theorem ne_nil_of_not_all {tf : UInt8 → Bool} {part : Bytes} (h : ¬ part.all tf = true) :
    part ≠ [] := by
  rintro rfl
  simp at h

theorem writePart_eq {b : Base64} {room : Nat} {tf : UInt8 → Bool} {part : Bytes}
    (h : partLen (!part.all tf) part ≤ room) :
    writePart b room 34 (!part.all tf) part = some (encodePart b tf part) := by
  by_cases hp : part.all tf = true
  · simp [writePart, encodePart, hp]
  · have hf : part.all tf = false := Bool.eq_false_iff.mpr hp
    have hroom : (part.length + 2) / 3 * 4 ≤ room - 2 := by
      simp only [partLen, hf, Bool.not_false, if_true] at h
      omega
    obtain ⟨c, text, he⟩ := List.exists_cons_of_ne_nil (b.encode_ne_nil (ne_nil_of_not_all hp))
    simp [writePart, encodePart, hf, Base64.encodeInto_eq hroom, he]

theorem length_writePart {b : Base64} {room : Nat} {q : UInt8} {need : Bool} {part t : Bytes}
    (h : writePart b room q need part = some t) : t.length = partLen need part := by
  unfold writePart at h
  cases need with
  | false =>
    obtain rfl : part = t := by simpa using h
    rfl
  | true =>
    rw [if_pos rfl] at h
    split at h
    · exact absurd h (by simp)
    · rename_i hne
      unfold Base64.encodeInto at h hne
      split_ifs at h hne with hroom
      · exact absurd rfl hne
      · have hlen := b.length_encode part
        obtain rfl := Option.some.inj h
        simp only [partLen, if_true, List.length_cons, List.length_append, List.length_nil]
        omega

theorem length_encodeTag_le {b : Base64} {maxLen : Nat} {decoded t : Bytes}
    (h : encodeTag b maxLen decoded = .ok t) : t.length ≤ maxLen := by
  unfold encodeTag encodeTagEx at h
  simp only [Bool.false_eq_true, if_false] at h
  split_ifs at h with hmax hempty hkey hlong
  split at h
  · exact absurd h (by simp)
  · rename_i k hk
    split at h
    · exact absurd h (by simp)
    · rename_i v hv
      obtain rfl := Except.ok.inj h
      have hlk := length_writePart hk
      have hlv := length_writePart hv
      rw [List.length_append, List.length_cons]
      omega

theorem encodeTag_eq_ok_iff {b : Base64} {maxLen : Nat} {k v t : Bytes} (hsep : tagSep ∉ k) :
    encodeTag b maxLen (k ++ tagSep :: v) = .ok t ↔
      maxLen ≤ maxPairLen + 1 ∧ k ≠ [] ∧
      t = encodePart b isTaggableKeyChar k ++ 58 :: encodePart b isTaggableValueChar v ∧
      t.length ≤ maxLen := by
  have hk := length_encodePart b isTaggableKeyChar k
  have hv := length_encodePart b isTaggableValueChar v
  unfold encodeTag encodeTagEx
  simp only [upTo_append_cons hsep, after_append_cons hsep, Bool.false_and, needsB64_false,
    List.length_append, List.length_cons, if_false, Bool.false_eq_true]
  have hlt : decide (k.length < k.length + (v.length + 1)) = true := by simp
  rw [hlt, Bool.true_and]
  by_cases hmax : maxLen > maxPairLen + 1
  · simp [hmax]
  rw [if_neg hmax, if_neg (by omega)]
  by_cases hnil : k = []
  · simp [hnil]
  rw [if_neg (by simpa using hnil)]
  by_cases hfit : partLen (!k.all isTaggableKeyChar) k + partLen (!v.all isTaggableValueChar) v + 1 > maxLen
  · rw [if_pos hfit]
    constructor
    · simp
    · rintro ⟨_, _, rfl, hlen⟩
      simp only [List.length_append, List.length_cons] at hlen
      omega
  · rw [if_neg hfit, EncodeType.char, writePart_eq (by omega)]
    simp only
    rw [writePart_eq (by omega)]
    simp only [Except.ok.injEq]
    constructor
    · rintro rfl
      refine ⟨by omega, hnil, rfl, ?_⟩
      simp only [List.length_append, List.length_cons]
      omega
    · rintro ⟨_, _, rfl, _⟩
      rfl

theorem decodePart_plain {b : Base64} {room : Nat} {part : Bytes}
    (h : ¬ b64Open <+: part) : decodePart b room part = some part := by
  rw [decodePart, if_neg (by simpa using h)]

theorem length_decodePart_lt {b : Base64} {room : Nat} {part x : Bytes} (h : b64Open <+: part)
    (hx : decodePart b room part = some x) : x.length < part.length := by
  have hlen := h.length_le
  rw [decodePart, if_pos (by simpa using h)] at hx
  simp only [b64Open, List.length_cons, List.length_nil] at hlen
  split_ifs at hx with hq htwo
  · rw [← Option.some.inj hx, List.length_nil]
    omega
  · have hd := Base64.length_decodeInto hx
    simp only [List.length_dropLast, List.length_drop] at hd
    omega

theorem length_decodePart_le {b : Base64} {room : Nat} {part x : Bytes}
    (hx : decodePart b room part = some x) : x.length ≤ part.length := by
  by_cases h : b64Open <+: part
  · exact (length_decodePart_lt h hx).le
  · rw [decodePart_plain h, Option.some.injEq] at hx
    exact hx ▸ le_refl _

theorem decodePart_quoted {b : Base64} {room : Nat} {text : Bytes}
    (hroom : text.length + 3 ≤ room) :
    decodePart b room (98 :: 34 :: (text ++ [34])) = b.decode text := by
  rw [decodePart, if_pos (by simp [b64Open]), if_neg (by simp [List.getLast?_cons]),
    if_neg (by simp)]
  simp [Base64.decodeInto_eq hroom]

theorem decodePart_encodePart {b : Base64} {room : Nat} {tf : UInt8 → Bool} {part : Bytes}
    (h : ¬ Ambiguous tf part) (hroom : (encodePart b tf part).length ≤ room) :
    decodePart b room (encodePart b tf part) = some part := by
  by_cases hp : part.all tf = true
  · rw [encodePart, if_pos hp]
    exact decodePart_plain fun hq => h ⟨hp, hq⟩
  · rw [encodePart, if_neg hp] at hroom ⊢
    simp only [List.length_cons, List.length_append, List.length_nil] at hroom
    rw [decodePart_quoted (by omega), b.decode_encode]

theorem decodePart_encodePart_iff {b : Base64} {room : Nat} {tf : UInt8 → Bool} {part : Bytes}
    (hroom : (encodePart b tf part).length ≤ room) :
    decodePart b room (encodePart b tf part) = some part ↔ ¬ Ambiguous tf part := by
  refine ⟨fun hd ha => ?_, fun h => decodePart_encodePart h hroom⟩
  rw [encodePart, if_pos ha.1] at hd
  exact absurd (length_decodePart_lt ha.2 hd) (lt_irrefl _)

theorem colon_not_mem_encodePart (b : Base64) (k : Bytes) :
    58 ∉ encodePart b isTaggableKeyChar k := by
  intro h
  unfold encodePart at h
  split_ifs at h with hp
  · have hc := List.all_eq_true.mp hp 58 h
    revert hc
    decide
  · simp only [List.mem_cons, List.mem_append, List.not_mem_nil, or_false] at h
    rcases h with h | h | h | h
    · exact absurd h (by decide)
    · exact absurd h (by decide)
    · exact absurd (b.encode_chars k 58 h) (by decide)
    · exact absurd h (by decide)

theorem decodeTag_some_iff {b : Base64} {n : Nat} {t d : Bytes} :
    decodeTag b n t = some d ↔
      ∃ k v, decodePart b n (upTo 58 t) = some k ∧ tagSep ∉ k ∧ k.length < n ∧
        decodePart b (n - (k.length + 1)) (after 58 t) = some v ∧ d = k ++ tagSep :: v := by
  unfold decodeTag
  cases hk : decodePart b n (upTo 58 t) with
  | none => simp
  | some k =>
    by_cases hsep : tagSep ∈ k
    · simp [hsep]
    by_cases hlen : k.length ≥ n
    · simp [hsep, hlen]
    cases hv : decodePart b (n - (k.length + 1)) (after 58 t) with
    | none => simp [hsep, hlen, hv]
    | some v =>
      simp only [hsep, hlen, hv, if_false, Option.some.injEq, exists_and_left, exists_eq_left',
        not_false_eq_true, true_and, eq_comm (a := d)]
      simp [Nat.lt_of_not_ge hlen]

theorem decodeTag_eq_some_iff {b : Base64} {n : Nat} {kt vt d : Bytes} (hc : 58 ∉ kt) :
    decodeTag b n (kt ++ 58 :: vt) = some d ↔
      ∃ k v, decodePart b n kt = some k ∧ tagSep ∉ k ∧ k.length < n ∧
        decodePart b (n - (k.length + 1)) vt = some v ∧ d = k ++ tagSep :: v := by
  rw [decodeTag_some_iff, upTo_append_cons hc, after_append_cons hc]

theorem tagSep_append_inj {k k' v v' : Bytes} (hk : tagSep ∉ k) (hk' : tagSep ∉ k')
    (h : k ++ tagSep :: v = k' ++ tagSep :: v') : k = k' ∧ v = v' := by
  have hkey := congrArg (upTo tagSep) h
  have hval := congrArg (after tagSep) h
  rw [upTo_append_cons hk, upTo_append_cons hk'] at hkey
  rw [after_append_cons hk, after_append_cons hk'] at hval
  exact ⟨hkey, hval⟩

theorem decodeTag_encodeTag_iff {b : Base64} {maxLen n : Nat} {k v t : Bytes} (hsep : tagSep ∉ k)
    (ht : encodeTag b maxLen (k ++ tagSep :: v) = .ok t) (hn : t.length ≤ n) :
    decodeTag b n t = some (k ++ tagSep :: v) ↔
      ¬ Ambiguous isTaggableKeyChar k ∧ ¬ Ambiguous isTaggableValueChar v := by
  obtain ⟨_, _, rfl, _⟩ := (encodeTag_eq_ok_iff hsep).mp ht
  have hkc := colon_not_mem_encodePart b k
  simp only [List.length_append, List.length_cons] at hn
  rw [decodeTag_eq_some_iff hkc]
  constructor
  · rintro ⟨k', v', hk, hs, _, hv, he⟩
    obtain ⟨rfl, rfl⟩ := tagSep_append_inj hsep hs he
    have hlen := length_decodePart_le hk
    exact ⟨(decodePart_encodePart_iff (by omega)).mp hk, (decodePart_encodePart_iff (by omega)).mp hv⟩
  · rintro ⟨hk, hv⟩
    have hd := @decodePart_encodePart b n _ k hk (by omega)
    have hlen := length_decodePart_le hd
    exact ⟨k, v, hd, hsep, by omega, decodePart_encodePart hv (by omega), rfl⟩

/-- The tag codec round-trips on a tag exactly when neither part is plain and
begins with `b"`; on such tags the encoding is injective. -/
theorem tag_codec_round_trip_iff (b : Base64) {maxLen n : Nat} {k v t : Bytes}
    (hsep : tagSep ∉ k) (ht : encodeTag b maxLen (k ++ tagSep :: v) = .ok t) (hn : t.length ≤ n) :
    (decodeTag b n t = some (k ++ tagSep :: v) ↔
      ¬ Ambiguous isTaggableKeyChar k ∧ ¬ Ambiguous isTaggableValueChar v) ∧
    ∀ maxLen' k' v', tagSep ∉ k' → encodeTag b maxLen' (k' ++ tagSep :: v') = .ok t →
      ¬ Ambiguous isTaggableKeyChar k ∧ ¬ Ambiguous isTaggableValueChar v →
      ¬ Ambiguous isTaggableKeyChar k' ∧ ¬ Ambiguous isTaggableValueChar v' →
      k' = k ∧ v' = v := by
  refine ⟨decodeTag_encodeTag_iff hsep ht hn, ?_⟩
  intro maxLen' k' v' hsep' ht' h h'
  have hd := (decodeTag_encodeTag_iff hsep ht hn).mpr h
  have hd' := (decodeTag_encodeTag_iff hsep' ht' hn).mpr h'
  rw [hd, Option.some.injEq] at hd'
  exact tagSep_append_inj hsep' hsep hd'.symm

theorem tag_codec_round_trip_brace :
    encodeTag standardBase64 256 ([123] ++ tagSep :: [120]) =
        .ok [98, 34, 101, 119, 61, 61, 34, 58, 120] ∧
      (decodeTag standardBase64 256 [98, 34, 101, 119, 61, 61, 34, 58, 120] =
          some ([123] ++ tagSep :: [120]) ↔
        ¬ Ambiguous isTaggableKeyChar [123] ∧ ¬ Ambiguous isTaggableValueChar [120]) :=
  ⟨by rfl, (@tag_codec_round_trip_iff standardBase64 256 _ _ _ _ (by decide) (by rfl) (by decide)).1⟩

theorem tag_codec_round_trip_fails :
    decodeTag standardBase64 256 [98, 34, 90, 109, 57, 118, 34, 58, 120] =
        some ([102, 111, 111] ++ tagSep :: [120]) ∧
      ¬ ∀ (k v t : Bytes) (maxLen : Nat), k ≠ [] → tagSep ∉ k →
        encodeTag standardBase64 maxLen (k ++ tagSep :: v) = .ok t →
        ∃ n, ∀ m ≥ n, decodeTag standardBase64 m t = some (k ++ tagSep :: v) := by
  refine ⟨by rfl, fun h => ?_⟩
  have hsep : tagSep ∉ ([98, 34, 90, 109, 57, 118, 34] : Bytes) := by decide
  have ht : encodeTag standardBase64 256 ([98, 34, 90, 109, 57, 118, 34] ++ tagSep :: [120]) =
      .ok [98, 34, 90, 109, 57, 118, 34, 58, 120] := by rfl
  obtain ⟨n, hn⟩ := h _ _ _ _ (by decide) hsep ht
  have hd := hn (max n 9) (le_max_left n 9)
  have ha := (decodeTag_encodeTag_iff hsep ht (le_max_right n 9)).mp hd
  exact absurd ha.1 (by decide)

end Reconnoiter
