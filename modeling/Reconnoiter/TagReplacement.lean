import Reconnoiter.TagBuild

/-! The replacement of an over-long tag in `build_tags`. The key and the value
are cut where needed so that the encoded pair has at most 256 bytes; a part
that is cut ends in a digest of the whole part. -/

namespace Reconnoiter

def decodeLenSubs (b64 : Bool) (n : Nat) : List (Nat × Nat) :=
  if b64 then [(n, 3), (subSize n 3 / 4 * 3, 2)] else []

def shortKeySubs (keyB64 valB64 : Bool) (tvalLen : Nat) : List (Nat × Nat) :=
  let tgtsize := decodeLen keyB64 maxCatLen
  let halved := tvalLen + 1 > decodeLen keyB64 (maxPairLen - maxCatLen)
  let tgtsize := if halved then min tgtsize (decodeLen keyB64 (maxPairLen / 2)) else tgtsize
  let suffix := encodeLen valB64 tagReplSuffixLen
  decodeLenSubs keyB64 maxCatLen ++ decodeLenSubs keyB64 (maxPairLen - maxCatLen) ++
    (if halved then decodeLenSubs keyB64 (maxPairLen / 2) else []) ++
    (if encodeLen keyB64 tgtsize + suffix + 1 > maxPairLen then
      [(maxPairLen, suffix), (subSize maxPairLen suffix, 1)] ++
        decodeLenSubs keyB64 (subSize (subSize maxPairLen suffix) 1)
    else []) ++
    [(shortKeySize keyB64 valB64 tvalLen, tagReplSuffixLen)]

def shortTagSubs (tkey tval : Bytes) : List (Nat × Nat) :=
  let keyB64 := !isTaggableKey tkey
  let valB64 := !isTaggableValue tval
  let valRoom := min (encodeLen valB64 tval.length) (encodeLen valB64 tagReplSuffixLen)
  let cut := encodeLen keyB64 tkey.length > min (subSize (subSize maxPairLen valRoom) 1) maxCatLen
  let keyLen := if cut then shortKeySize keyB64 valB64 tval.length else tkey.length
  let room := subSize (subSize maxPairLen (encodeLen keyB64 keyLen)) 1
  [(maxPairLen, valRoom), (subSize maxPairLen valRoom, 1)] ++
    (if cut then shortKeySubs keyB64 valB64 tval.length else []) ++
    [(maxPairLen, encodeLen keyB64 keyLen), (subSize maxPairLen (encodeLen keyB64 keyLen), 1)] ++
    (if encodeLen valB64 tval.length > room then
      decodeLenSubs valB64 room ++ [(decodeLen valB64 room, tagReplSuffixLen)]
    else [])

def isHexDigit (c : UInt8) : Bool := 48 ≤ c && c ≤ 57 || 97 ≤ c && c ≤ 102

def HexDigest (sha1Hex : Bytes → Bytes) : Prop :=
  ∀ x, (sha1Hex x).length = 2 * shaDigestLength ∧ (sha1Hex x).all isHexDigit = true

def KeptAs (sha1Hex : Bytes → Bytes) (part kept : Bytes) : Prop :=
  kept = part ∨ ∃ n ≤ part.length, kept = part.take n ++ tagReplSuffixLeader ++ sha1Hex part

/-- A replacement as it is meant: small enough, and decoding to the pair that was
made of the parts. -/
structure Replaced (b : Base64) (sha1Hex : Bytes → Bytes) (k v : Bytes) (tag : Tag) : Prop where
  total : tag.text.length ≤ maxPairLen
  category : tag.categorySize ≤ maxCatLen
  decodes : ∃ k' v', KeptAs sha1Hex k k' ∧ KeptAs sha1Hex v v' ∧
    shortTag sha1Hex k v = .ok (k' ++ tagSep :: v') ∧
    decodeTag b maxPairLen tag.text = some (k' ++ tagSep :: v')

def KeyTooLong (k v : Bytes) : Prop :=
  encodeLen (!isTaggableKey k) k.length >
    min (255 - min (encodeLen (!isTaggableValue v) v.length)
      (encodeLen (!isTaggableValue v) tagReplSuffixLen)) maxCatLen

instance (k v : Bytes) : Decidable (KeyTooLong k v) := inferInstanceAs (Decidable (_ > _))

def cutTo (sha1Hex : Bytes → Bytes) (n : Nat) (part : Bytes) : Bytes :=
  part.take (n - tagReplSuffixLen) ++ tagReplSuffixLeader ++ sha1Hex part

def keptKey (sha1Hex : Bytes → Bytes) (k v : Bytes) : Bytes :=
  if KeyTooLong k v then
    cutTo sha1Hex (if 2 ≤ v.length then 128
      else 255 - encodeLen (!isTaggableValue v) tagReplSuffixLen) k
  else k

def keptValue (sha1Hex : Bytes → Bytes) (k v : Bytes) : Bytes :=
  let room := 255 - encodeLen (!isTaggableKey k) (keptKey sha1Hex k v).length
  if encodeLen (!isTaggableValue v) v.length > room then
    cutTo sha1Hex (decodeLen (!isTaggableValue v) room) v
  else v

@[simp] theorem tagReplSuffixLen_eq : tagReplSuffixLen = 46 := rfl

@[simp] theorem encodeLen_false (n : Nat) : encodeLen false n = n := rfl

theorem encodeLen_true (n : Nat) : encodeLen true n = (n + 2) / 3 * 4 + 3 := rfl

@[simp] theorem decodeLen_false (n : Nat) : decodeLen false n = n := rfl

theorem subSize_of_le {m n : Nat} (h : n ≤ m) : subSize m n = m - n := if_pos h

theorem decodeLen_true {n : Nat} (h : 7 ≤ n) : decodeLen true n = (n - 3) / 4 * 3 - 2 := by
  rw [decodeLen, if_pos rfl, subSize_of_le (by omega : 3 ≤ n), subSize_of_le (by omega)]

theorem room_beside {n : Nat} (h : n ≤ 255) : subSize (subSize maxPairLen n) 1 = 255 - n := by
  rw [maxPairLen, subSize_of_le (show n ≤ 256 by omega), subSize_of_le (show 1 ≤ 256 - n by omega)]
  omega

theorem encodeLen_suffix (b64 : Bool) :
    encodeLen b64 tagReplSuffixLen = if b64 = true then 67 else 46 := by
  cases b64 <;> rfl

theorem length_cutTo {sha1Hex : Bytes → Bytes} (hsha : HexDigest sha1Hex) {n : Nat} {part : Bytes}
    (hn : 46 ≤ n) (hpart : n - 46 ≤ part.length) : (cutTo sha1Hex n part).length = n := by
  have hlen : (sha1Hex part).length = 40 := (hsha part).1
  simp only [cutTo, List.length_append, List.length_take, hlen, tagReplSuffixLen_eq,
    tagReplSuffixLeader, List.length_cons, List.length_nil]
  omega

theorem keptAs_cutTo {sha1Hex : Bytes → Bytes} {n : Nat} {part : Bytes} (hpart : n - 46 ≤ part.length) :
    KeptAs sha1Hex part (cutTo sha1Hex n part) :=
  Or.inr ⟨n - 46, hpart, rfl⟩

theorem suffix_bounds (b64 : Bool) :
    46 ≤ encodeLen b64 tagReplSuffixLen ∧ encodeLen b64 tagReplSuffixLen ≤ 67 := by
  cases b64 with
  | false => decide
  | true => decide

theorem shortKeySize_plain (valB64 : Bool) (n : Nat) :
    shortKeySize false valB64 n =
      if 2 ≤ n then 128 else 255 - encodeLen valB64 tagReplSuffixLen := by
  obtain ⟨hlow, hhigh⟩ := suffix_bounds valB64
  have hroom := @room_beside (encodeLen valB64 tagReplSuffixLen) (by omega)
  unfold shortKeySize
  simp only [decodeLen_false, encodeLen_false, hroom]
  simp only [maxCatLen, maxPairLen]
  by_cases hn : 2 ≤ n
  · have hhalf : n + 1 > 256 - 254 := by omega
    simp only [hn, hhalf, if_true]
    exact if_neg (by omega)
  · have hhalf : ¬ n + 1 > 256 - 254 := by omega
    simp only [hn, hhalf, if_false]
    exact if_pos (by omega)

theorem length_of_keyTooLong {k v : Bytes} (hk : isTaggableKey k = true) (h : KeyTooLong k v) :
    189 ≤ k.length := by
  obtain ⟨hlow, hhigh⟩ := suffix_bounds (!isTaggableValue v)
  unfold KeyTooLong maxCatLen at h
  rw [hk, Bool.not_true, encodeLen_false] at h
  omega

section

variable {sha1Hex : Bytes → Bytes} {k v : Bytes}

theorem taggable_of_cut (h : ¬ (KeyTooLong k v ∧ isTaggableKey k = false)) (hlong : KeyTooLong k v) :
    isTaggableKey k = true := by
  cases hk : isTaggableKey k with
  | false => exact absurd ⟨hlong, hk⟩ h
  | true => rfl

theorem length_keptKey (hsha : HexDigest sha1Hex) (hk : isTaggableKey k = true)
    (h : KeyTooLong k v) :
    (keptKey sha1Hex k v).length =
      if 2 ≤ v.length then 128 else 255 - encodeLen (!isTaggableValue v) tagReplSuffixLen := by
  have hlong := length_of_keyTooLong hk h
  obtain ⟨hlow, hhigh⟩ := suffix_bounds (!isTaggableValue v)
  rw [keptKey, if_pos h]
  apply length_cutTo hsha
  · split_ifs <;> omega
  · split_ifs <;> omega

theorem room_for_value (hsha : HexDigest sha1Hex) (h : ¬ (KeyTooLong k v ∧ isTaggableKey k = false)) :
    encodeLen (!isTaggableKey k) (keptKey sha1Hex k v).length ≤ 254 ∧
      min (encodeLen (!isTaggableValue v) v.length)
          (encodeLen (!isTaggableValue v) tagReplSuffixLen) ≤
        255 - encodeLen (!isTaggableKey k) (keptKey sha1Hex k v).length := by
  obtain ⟨hlow, hhigh⟩ := suffix_bounds (!isTaggableValue v)
  by_cases hlong : KeyTooLong k v
  · have hk := taggable_of_cut h hlong
    have hlen := length_keptKey hsha hk hlong
    rw [hk, Bool.not_true, encodeLen_false, hlen]
    split_ifs <;> omega
  · rw [keptKey, if_neg hlong]
    unfold KeyTooLong maxCatLen at hlong
    omega

theorem decodeLen_bounds {b64 : Bool} {room n : Nat} (hroom : encodeLen b64 tagReplSuffixLen ≤ room)
    (hn : encodeLen b64 n > room) :
    46 ≤ decodeLen b64 room ∧ decodeLen b64 room ≤ n ∧ encodeLen b64 (decodeLen b64 room) ≤ room := by
  rw [encodeLen_suffix] at hroom
  cases b64 with
  | false =>
    simp only [Bool.false_eq_true, if_false, encodeLen_false, decodeLen_false] at *
    omega
  | true =>
    simp only [if_true] at hroom
    rw [decodeLen_true (by omega), encodeLen_true] at *
    omega

theorem shorten_eq {n : Nat} {text part : Bytes} (hn : 46 ≤ n)
    (htext : text.take (n - 46) = part.take (n - 46)) :
    shorten sha1Hex n text part = .ok (cutTo sha1Hex n part) := by
  rw [shorten, tagReplSuffixLen_eq, if_pos hn, cutTo, tagReplSuffixLen_eq, htext]

theorem shortTag_eq (hsha : HexDigest sha1Hex) (h : ¬ (KeyTooLong k v ∧ isTaggableKey k = false)) :
    shortTag sha1Hex k v = .ok (keptKey sha1Hex k v ++ tagSep :: keptValue sha1Hex k v) := by
  obtain ⟨hlow, hhigh⟩ := suffix_bounds (!isTaggableValue v)
  obtain ⟨hkey, hroom⟩ := @room_for_value sha1Hex k v hsha h
  have hcond : (encodeLen (!isTaggableKey k) k.length >
      min (subSize (subSize maxPairLen (min (encodeLen (!isTaggableValue v) v.length)
        (encodeLen (!isTaggableValue v) tagReplSuffixLen))) 1) maxCatLen) ↔ KeyTooLong k v := by
    rw [room_beside (by omega), KeyTooLong]
  -- The value, behind the key that stays.
  have hvalue : (if encodeLen (!isTaggableValue v) v.length >
      subSize (subSize maxPairLen (encodeLen (!isTaggableKey k) (keptKey sha1Hex k v).length)) 1 then do
        let value ← shorten sha1Hex (decodeLen (!isTaggableValue v) (subSize (subSize maxPairLen
          (encodeLen (!isTaggableKey k) (keptKey sha1Hex k v).length)) 1)) v v
        pure (keptKey sha1Hex k v ++ tagSep :: value)
      else (do
        let value ← Except.ok v
        pure (keptKey sha1Hex k v ++ tagSep :: value) : Except Fault Bytes)) =
        .ok (keptKey sha1Hex k v ++ tagSep :: keptValue sha1Hex k v) := by
    rw [room_beside (by omega), keptValue]
    by_cases hval : encodeLen (!isTaggableValue v) v.length >
        255 - encodeLen (!isTaggableKey k) (keptKey sha1Hex k v).length
    · obtain ⟨hsize, -, -⟩ := decodeLen_bounds (by omega) hval
      simp only [hval, if_true]
      rw [shorten_eq hsize rfl]
      rfl
    · simp only [hval, if_false]
      rfl
  unfold shortTag
  dsimp only
  by_cases hlong : KeyTooLong k v
  · have hk := taggable_of_cut h hlong
    have hlen := length_of_keyTooLong hk hlong
    have hcut : shorten sha1Hex (shortKeySize (!isTaggableKey k) (!isTaggableValue v) v.length)
        (k ++ tagSep :: v) k = .ok (keptKey sha1Hex k v) := by
      rw [hk, Bool.not_true, shortKeySize_plain, keptKey, if_pos hlong]
      apply shorten_eq
      · split_ifs <;> omega
      · apply List.take_append_of_le_length
        split_ifs <;> omega
    rw [if_pos (hcond.mpr hlong), hcut]
    exact hvalue
  · have hsame : keptKey sha1Hex k v = k := by rw [keptKey, if_neg hlong]
    rw [hsame] at hvalue ⊢
    rw [if_neg (fun hc => hlong (hcond.mp hc))]
    exact hvalue

theorem lengths_of_cut (h : ¬ (KeyTooLong k v ∧ isTaggableKey k = false)) (hsha : HexDigest sha1Hex) :
    (if encodeLen (!isTaggableKey k) k.length >
      min (subSize (subSize maxPairLen (min (encodeLen (!isTaggableValue v) v.length)
        (encodeLen (!isTaggableValue v) tagReplSuffixLen))) 1) maxCatLen then
      shortKeySize (!isTaggableKey k) (!isTaggableValue v) v.length else k.length) =
    (keptKey sha1Hex k v).length := by
  obtain ⟨hlow, hhigh⟩ := suffix_bounds (!isTaggableValue v)
  rw [room_beside (by omega)]
  by_cases hlong : KeyTooLong k v
  · have hk := taggable_of_cut h hlong
    have hlen := length_keptKey hsha hk hlong
    unfold KeyTooLong at hlong
    rw [if_pos hlong, hk, Bool.not_true, shortKeySize_plain, hlen]
  · rw [keptKey, if_neg hlong]
    unfold KeyTooLong at hlong
    rw [if_neg hlong]

theorem decodeLenSubs_ok {b64 : Bool} {n : Nat} (h : b64 = false ∨ 7 ≤ n) :
    ∀ p ∈ decodeLenSubs b64 n, p.2 ≤ p.1 := by
  cases b64 with
  | false => simp [decodeLenSubs]
  | true =>
    have hn : 7 ≤ n := h.resolve_left (by simp)
    simp only [decodeLenSubs, if_true, List.forall_mem_cons, List.not_mem_nil, false_implies,
      implies_true, and_true, subSize_of_le (show 3 ≤ n by omega)]
    omega

theorem mem_of_mem_ite {α : Type*} {c : Prop} [Decidable c] {l : List α} {x : α}
    (h : x ∈ if c then l else []) : x ∈ l := by
  split_ifs at h with hc
  · exact h
  · exact absurd h List.not_mem_nil

theorem shortKeySubs_plain (valB64 : Bool) (n : Nat) :
    ∀ p ∈ shortKeySubs false valB64 n, p.2 ≤ p.1 := by
  obtain ⟨hlow, hhigh⟩ := suffix_bounds valB64
  have hsize : 46 ≤ shortKeySize false valB64 n := by
    rw [shortKeySize_plain]
    split_ifs <;> omega
  have hroom : encodeLen valB64 tagReplSuffixLen ≤ 256 := by omega
  intro p hp
  simp only [shortKeySubs, decodeLenSubs, Bool.false_eq_true, if_false, ite_self, List.nil_append,
    List.append_nil, List.mem_append, List.mem_singleton, maxPairLen, subSize_of_le hroom] at hp
  rcases hp with hp | rfl
  · have hm := mem_of_mem_ite hp
    simp only [List.mem_cons, List.not_mem_nil, or_false] at hm
    rcases hm with rfl | rfl
    · exact hroom
    · show 1 ≤ 256 - encodeLen valB64 tagReplSuffixLen
      omega
  · exact hsize

theorem shortTagSubs_ok_iff (hsha : HexDigest sha1Hex) :
    (∀ p ∈ shortTagSubs k v, p.2 ≤ p.1) ↔ ¬ (KeyTooLong k v ∧ isTaggableKey k = false) := by
  obtain ⟨hlow, hhigh⟩ := suffix_bounds (!isTaggableValue v)
  have hcond : (encodeLen (!isTaggableKey k) k.length >
      min (subSize (subSize maxPairLen (min (encodeLen (!isTaggableValue v) v.length)
        (encodeLen (!isTaggableValue v) tagReplSuffixLen))) 1) maxCatLen) ↔ KeyTooLong k v := by
    rw [room_beside (by omega), KeyTooLong]
  constructor
  · rintro hsubs ⟨hlong, hk⟩
    -- The room beside a category of 254 bytes is too small for any base64 text.
    have hm : (2, 3) ∈ shortTagSubs k v := by
      simp only [shortTagSubs, if_pos (hcond.mpr hlong)]
      simp [hk, shortKeySubs, decodeLenSubs, maxPairLen, maxCatLen]
    exact absurd (hsubs _ hm) (by decide)
  · intro h
    obtain ⟨hkey, hroom⟩ := @room_for_value sha1Hex k v hsha h
    have hlens := @lengths_of_cut sha1Hex k v h hsha
    have hroom₁ := @room_beside (min (encodeLen (!isTaggableValue v) v.length)
      (encodeLen (!isTaggableValue v) tagReplSuffixLen)) (by omega)
    have hroom₂ := @room_beside (encodeLen (!isTaggableKey k) (keptKey sha1Hex k v).length)
      (by omega)
    unfold shortTagSubs
    dsimp only
    rw [hlens, hroom₁, hroom₂]
    simp only [List.forall_mem_append, List.forall_mem_cons, List.not_mem_nil, false_implies,
      implies_true, and_true, maxPairLen, subSize_of_le (show
        min (encodeLen (!isTaggableValue v) v.length)
          (encodeLen (!isTaggableValue v) tagReplSuffixLen) ≤ 256 by omega),
      subSize_of_le (show encodeLen (!isTaggableKey k) (keptKey sha1Hex k v).length ≤ 256 by omega)]
    refine ⟨⟨⟨⟨by omega, by omega⟩, ?_⟩, ⟨by omega, by omega⟩⟩, ?_⟩
    · by_cases hlong : KeyTooLong k v
      · have hk := taggable_of_cut h hlong
        intro p hp
        have hm := mem_of_mem_ite hp
        rw [hk] at hm
        exact shortKeySubs_plain _ _ p hm
      · unfold KeyTooLong at hlong
        rw [if_neg hlong]
        simp
    · split_ifs with hval
      · obtain ⟨hsize, -, -⟩ := decodeLen_bounds (by omega) hval
        have hb : (!isTaggableValue v) = false ∨
            7 ≤ 255 - encodeLen (!isTaggableKey k) (keptKey sha1Hex k v).length := by omega
        rw [List.forall_mem_append, List.forall_mem_singleton]
        exact ⟨decodeLenSubs_ok hb, hsize⟩
      · simp

def Fits (b : Base64) (k v : Bytes) : Prop :=
  ¬ Ambiguous isTaggableKeyChar k ∧ ¬ Ambiguous isTaggableValueChar v ∧
    (encodePart b isTaggableKeyChar k).length + 1 ≤ maxCatLen ∧
    (encodePart b isTaggableKeyChar k).length + 1 +
      (encodePart b isTaggableValueChar v).length ≤ maxPairLen

theorem encodeShort_eq_some_iff {b : Base64} {k' v' : Bytes} {tag : Tag} (hsep : tagSep ∉ k') :
    encodeShort b (k' ++ tagSep :: v') = some tag ↔
      encodeTag b (maxPairLen + 1) (k' ++ tagSep :: v') = .ok tag.text ∧
        tag.categorySize = (encodePart b isTaggableKeyChar k').length + 1 ∧
        tag.categorySize ≤ maxCatLen := by
  unfold encodeShort
  cases he : encodeTag b (maxPairLen + 1) (k' ++ tagSep :: v') with
  | error e => simp
  | ok text =>
    obtain ⟨-, -, htext, -⟩ := (encodeTag_eq_ok_iff hsep).mp he
    have hcat : (upTo 58 text).length = (encodePart b isTaggableKeyChar k').length := by
      rw [htext, upTo_append_cons (colon_not_mem_encodePart b k')]
    dsimp only
    rw [hcat]
    obtain ⟨t, c⟩ := tag
    constructor
    · intro h
      split_ifs at h with hc
      obtain ⟨rfl, rfl⟩ := Tag.mk.inj (Option.some.inj h)
      exact ⟨rfl, rfl, hc⟩
    · rintro ⟨ht, rfl, hc⟩
      rw [if_pos hc, Except.ok.inj ht]

theorem sep_not_mem_hex (hsha : HexDigest sha1Hex) (part : Bytes) : tagSep ∉ sha1Hex part := by
  intro hm
  have hc := List.all_eq_true.mp (hsha part).2 _ hm
  revert hc
  decide

theorem sep_not_mem_keptKey (hsha : HexDigest sha1Hex) (hsep : tagSep ∉ k) :
    tagSep ∉ keptKey sha1Hex k v := by
  unfold keptKey
  split_ifs
  · simp only [cutTo, List.mem_append, not_or]
    exact ⟨⟨fun hm => hsep (List.mem_of_mem_take hm), by decide⟩, sep_not_mem_hex hsha k⟩
  · simp only [cutTo, List.mem_append, not_or]
    exact ⟨⟨fun hm => hsep (List.mem_of_mem_take hm), by decide⟩, sep_not_mem_hex hsha k⟩
  · exact hsep

theorem keptAs_keptKey (h : ¬ (KeyTooLong k v ∧ isTaggableKey k = false)) :
    KeptAs sha1Hex k (keptKey sha1Hex k v) := by
  by_cases hlong : KeyTooLong k v
  · have hk := taggable_of_cut h hlong
    have hlen := length_of_keyTooLong hk hlong
    obtain ⟨hlow, -⟩ := suffix_bounds (!isTaggableValue v)
    rw [keptKey, if_pos hlong]
    apply keptAs_cutTo
    split_ifs <;> omega
  · rw [keptKey, if_neg hlong]
    exact Or.inl rfl

theorem keptAs_keptValue (hsha : HexDigest sha1Hex)
    (h : ¬ (KeyTooLong k v ∧ isTaggableKey k = false)) :
    KeptAs sha1Hex v (keptValue sha1Hex k v) := by
  obtain ⟨-, hroom⟩ := @room_for_value sha1Hex k v hsha h
  unfold keptValue
  dsimp only
  split_ifs with hval
  · obtain ⟨-, hle, -⟩ := decodeLen_bounds (by omega) hval
    exact keptAs_cutTo (by omega)
  · exact Or.inl rfl

theorem replaced_iff_fits {b : Base64} (hsha : HexDigest sha1Hex) (hsep : tagSep ∉ k) :
    (∃ tag, (shortTag sha1Hex k v).map (encodeShort b) = .ok (some tag) ∧
      Replaced b sha1Hex k v tag ∧ ∀ p ∈ shortTagSubs k v, p.2 ≤ p.1) ↔
    ¬ (KeyTooLong k v ∧ isTaggableKey k = false) ∧ k ≠ [] ∧
      Fits b (keptKey sha1Hex k v) (keptValue sha1Hex k v) := by
  rw [shortTagSubs_ok_iff hsha]
  by_cases hcut : KeyTooLong k v ∧ isTaggableKey k = false
  · simp [hcut]
  have hshort := shortTag_eq hsha hcut
  have hsep' := @sep_not_mem_keptKey sha1Hex k v hsha hsep
  have hnil : keptKey sha1Hex k v = [] ↔ k = [] := by
    by_cases hlong : KeyTooLong k v
    · rw [keptKey, if_pos hlong]
      have hne : k ≠ [] := by
        rintro rfl
        simp [KeyTooLong, isTaggableKey, isTaggablePart, b64Open] at hlong
      simp [cutTo, tagReplSuffixLeader, hne]
    · rw [keptKey, if_neg hlong]
  rw [hshort]
  simp only [Except.map, Except.ok.injEq, hcut, not_false_eq_true, and_true, true_and]
  constructor
  · rintro ⟨tag, htag, hrep⟩
    obtain ⟨henc, hcat, hle⟩ := (encodeShort_eq_some_iff hsep').mp htag
    obtain ⟨-, hne, htext, -⟩ := (encodeTag_eq_ok_iff hsep').mp henc
    obtain ⟨k', v', -, -, hsame, hdec⟩ := hrep.decodes
    rw [hshort, Except.ok.injEq] at hsame
    rw [← hsame, decodeTag_encodeTag_iff hsep' henc hrep.total] at hdec
    have htotal := hrep.total
    rw [htext, List.length_append, List.length_cons] at htotal
    exact ⟨fun hk => hne (hnil.mpr hk), hdec.1, hdec.2, by omega, by omega⟩
  · rintro ⟨hne, hk, hv, hcat, htotal⟩
    have hlen : (encodePart b isTaggableKeyChar (keptKey sha1Hex k v) ++
        58 :: encodePart b isTaggableValueChar (keptValue sha1Hex k v)).length ≤ maxPairLen := by
      rw [List.length_append, List.length_cons]
      omega
    have henc := (@encodeTag_eq_ok_iff b (maxPairLen + 1) (keptKey sha1Hex k v)
      (keptValue sha1Hex k v) _ hsep').mpr
        ⟨le_rfl, fun hx => hne (hnil.mp hx), rfl, hlen.trans (Nat.le_succ _)⟩
    refine ⟨⟨_, _⟩, (encodeShort_eq_some_iff hsep').mpr ⟨henc, rfl, hcat⟩, hlen, hcat, ?_⟩
    exact ⟨_, _, keptAs_keptKey hcut, keptAs_keptValue hsha hcut, hshort,
      (decodeTag_encodeTag_iff hsep' henc hlen).mpr ⟨hk, hv⟩⟩

theorem isTaggableKey_of_plain (h : ¬ b64Open <+: k) : isTaggableKey k = k.all isTaggableKeyChar := by
  rw [isTaggableKey, isTaggablePart, if_neg (by simp [h])]

theorem isTaggableValue_of_plain (h : ¬ b64Open <+: v) :
    isTaggableValue v = v.all isTaggableValueChar := by
  have hempty : v ≠ [98, 34, 34] := by
    rintro rfl
    exact h (by decide)
  cases v with
  | nil => rfl
  | cons c v =>
    have hbeq : (c :: v == [98, 34, 34]) = false := by
      rw [beq_eq_false_iff_ne]
      exact hempty
    rw [isTaggableValue, isTaggablePart, if_neg (by simp [h]), hbeq]
    simp

theorem not_quoted_cutTo {part : Bytes} (h : ¬ b64Open <+: part) (n : Nat) :
    ¬ b64Open <+: cutTo sha1Hex n part := by
  unfold cutTo
  generalize n - tagReplSuffixLen = m
  match m, part, h with
  | 0, _, _ => simp [b64Open, tagReplSuffixLeader]
  | m + 1, [], _ => simp [b64Open, tagReplSuffixLeader]
  | 1, c :: part, _ => simp [b64Open, tagReplSuffixLeader]
  | m + 2, [c], _ => simp [b64Open, tagReplSuffixLeader]
  | m + 2, c :: d :: part, h =>
    simp only [b64Open, List.take_succ_cons, List.cons_append, List.cons_prefix_cons,
      List.nil_prefix, and_true] at h ⊢
    exact h

theorem hex_taggable (c : UInt8) (h : isHexDigit c = true) :
    isTaggableKeyChar c = true ∧ isTaggableValueChar c = true := by
  revert c
  decide +kernel

theorem all_cutTo {tf : UInt8 → Bool} (hsha : HexDigest sha1Hex) {part : Bytes} (n : Nat)
    (hleader : tagReplSuffixLeader.all tf = true) (hhex : ∀ c, isHexDigit c = true → tf c = true)
    (h : part.all tf = true) : (cutTo sha1Hex n part).all tf = true := by
  rw [cutTo, List.all_append, List.all_append, hleader, Bool.and_true, Bool.and_eq_true]
  constructor
  · rw [List.all_eq_true] at h ⊢
    intro c hc
    exact h c (List.mem_of_mem_take hc)
  · have hall := (hsha part).2
    rw [List.all_eq_true] at hall ⊢
    intro c hc
    exact hhex c (hall c hc)

theorem partLen_le (need : Bool) (part : Bytes) : partLen need part ≤ encodeLen true part.length := by
  rw [encodeLen_true]
  unfold partLen
  split_ifs <;> omega

theorem length_encode_keptKey {b : Base64} (hsha : HexDigest sha1Hex) (hq : ¬ b64Open <+: k)
    (h : ¬ (KeyTooLong k v ∧ isTaggableKey k = false)) :
    (encodePart b isTaggableKeyChar (keptKey sha1Hex k v)).length =
      encodeLen (!isTaggableKey k) (keptKey sha1Hex k v).length := by
  rw [length_encodePart]
  have hall := isTaggableKey_of_plain hq
  by_cases hlong : KeyTooLong k v
  · have hk := taggable_of_cut h hlong
    have hcut := all_cutTo hsha (if 2 ≤ v.length then 128
      else 255 - encodeLen (!isTaggableValue v) tagReplSuffixLen) (by decide)
      (fun c hc => (hex_taggable c hc).1) (hall ▸ hk)
    rw [keptKey, if_pos hlong, hcut, hk]
    rfl
  · rw [keptKey, if_neg hlong, ← hall]
    rfl

theorem length_encode_keptValue {b : Base64} (hsha : HexDigest sha1Hex) (hq : ¬ b64Open <+: v)
    (h : ¬ (KeyTooLong k v ∧ isTaggableKey k = false)) :
    (encodePart b isTaggableValueChar (keptValue sha1Hex k v)).length ≤
      255 - encodeLen (!isTaggableKey k) (keptKey sha1Hex k v).length := by
  obtain ⟨hlow, hhigh⟩ := suffix_bounds (!isTaggableValue v)
  obtain ⟨-, hroom⟩ := @room_for_value sha1Hex k v hsha h
  have hall := isTaggableValue_of_plain hq
  rw [length_encodePart, keptValue]
  split_ifs with hval
  · obtain ⟨hsize, hle, hfit⟩ := decodeLen_bounds (by omega) hval
    have hlen := length_cutTo hsha hsize (show _ ≤ v.length by omega)
    cases hv : isTaggableValue v with
    | true =>
      rw [hv] at hlen hfit
      rw [Bool.not_true] at hlen hfit ⊢
      have hcut := all_cutTo hsha (decodeLen false
        (255 - encodeLen (!isTaggableKey k) (keptKey sha1Hex k v).length)) (by decide)
        (fun c hc => (hex_taggable c hc).2) (hall ▸ hv)
      rw [hcut]
      show (cutTo sha1Hex _ v).length ≤ _
      rw [hlen]
      exact hfit
    | false =>
      rw [hv] at hlen hfit
      rw [Bool.not_false] at hlen hfit ⊢
      refine (partLen_le _ _).trans ?_
      rw [hlen]
      exact hfit
  · rw [← hall]
    exact Nat.le_of_not_lt hval

theorem fits_iff_of_plain {b : Base64} (hsha : HexDigest sha1Hex) (hk : ¬ b64Open <+: k)
    (hv : ¬ b64Open <+: v) (h : ¬ (KeyTooLong k v ∧ isTaggableKey k = false)) :
    Fits b (keptKey sha1Hex k v) (keptValue sha1Hex k v) ↔
      ¬ (isTaggableKey k = true ∧ k.length = 254 ∧ ¬ KeyTooLong k v) := by
  obtain ⟨hkey, hroom⟩ := @room_for_value sha1Hex k v hsha h
  have hlk := @length_encode_keptKey sha1Hex k v b hsha hk h
  have hlv := @length_encode_keptValue sha1Hex k v b hsha hv h
  unfold Fits
  rw [hlk, maxCatLen, maxPairLen]
  constructor
  · rintro ⟨-, -, hcat, -⟩ ⟨htag, hlen, hlong⟩
    rw [keptKey, if_neg hlong, htag, Bool.not_true, encodeLen_false] at hcat
    omega
  · intro hnot
    refine ⟨fun ha => ?_, fun ha => ?_, ?_, by omega⟩
    · unfold keptKey at ha
      split_ifs at ha
      · exact not_quoted_cutTo hk _ ha.2
      · exact not_quoted_cutTo hk _ ha.2
      · exact hk ha.2
    · unfold keptValue at ha
      dsimp only at ha
      split_ifs at ha
      · exact not_quoted_cutTo hv _ ha.2
      · exact hv ha.2
    · cases htag : isTaggableKey k with
      | false =>
        rw [htag] at hkey
        rw [Bool.not_false, encodeLen_true] at hkey ⊢
        omega
      | true =>
        rw [htag] at hkey
        rw [Bool.not_true, encodeLen_false] at hkey ⊢
        by_cases hlong : KeyTooLong k v
        · have hlen := length_keptKey hsha htag hlong
          obtain ⟨hlow, -⟩ := suffix_bounds (!isTaggableValue v)
          split_ifs at hlen <;> omega
        · rw [keptKey, if_neg hlong] at hkey ⊢
          have hne : k.length ≠ 254 := fun he => hnot ⟨htag, he, hlong⟩
          omega

end

/-- The decoded tags that are replaced as meant. A key that is in need of base64
is not cut, a plain key is not of 254 bytes with next to no value, and a part
that looks quoted leaves parts that fit all the same. -/
def Replaceable (b : Base64) (sha1Hex : Bytes → Bytes) (k v : Bytes) : Prop :=
  k ≠ [] ∧ ¬ (KeyTooLong k v ∧ isTaggableKey k = false) ∧
    ¬ (isTaggableKey k = true ∧ k.length = 254 ∧ ¬ KeyTooLong k v) ∧
    (b64Open <+: k ∨ b64Open <+: v → Fits b (keptKey sha1Hex k v) (keptValue sha1Hex k v))

theorem replaceable_iff {b : Base64} {sha1Hex : Bytes → Bytes} {k v : Bytes}
    (hsha : HexDigest sha1Hex) :
    Replaceable b sha1Hex k v ↔ ¬ (KeyTooLong k v ∧ isTaggableKey k = false) ∧ k ≠ [] ∧
      Fits b (keptKey sha1Hex k v) (keptValue sha1Hex k v) := by
  unfold Replaceable
  constructor
  · rintro ⟨hne, hcut, hlimit, hquoted⟩
    refine ⟨hcut, hne, ?_⟩
    by_cases hq : b64Open <+: k ∨ b64Open <+: v
    · exact hquoted hq
    · rw [not_or] at hq
      exact (fits_iff_of_plain hsha hq.1 hq.2 hcut).mpr hlimit
  · rintro ⟨hcut, hne, hfits⟩
    refine ⟨hne, hcut, ?_, fun _ => hfits⟩
    rintro ⟨-, hlen, hlong⟩
    have hcat := hfits.2.2.1
    rw [keptKey, if_neg hlong, length_encodePart, maxCatLen] at hcat
    unfold partLen at hcat
    split_ifs at hcat <;> omega

/-- With a replacement slot free, an over-long tag is replaced by exactly one tag
that is small enough and decodes to what stays of its parts, without an
underflow or a failed assertion, if and only if it is replaceable. -/
theorem long_tag_replaced_iff {b : Base64} {sha1Hex : Bytes → Bytes} (hsha : HexDigest sha1Hex)
    {input k v : Bytes} {parsed : ParsedTag} {bigtag used : Nat} {st : TagScan}
    (hparse : parseOne input = some parsed ∧ parsed.tooLong = true)
    (hslot : st.repl = some used ∧ used < maxTagReplacements) (hsep : tagSep ∉ k)
    (hfit : ∀ n ≥ growBigtag bigtag (input.length - parsed.size) parsed.size,
      decodeTag b n (input.take parsed.size) = some (k ++ tagSep :: v)) :
    (∃ tag bigtag', takeTag b sha1Hex input parsed bigtag st =
        .ok (⟨st.tags ++ [tag], some (used + 1)⟩, bigtag') ∧
      Replaced b sha1Hex k v tag ∧ ∀ p ∈ shortTagSubs k v, p.2 ≤ p.1) ↔
    Replaceable b sha1Hex k v := by
  rw [replaceable_iff hsha, ← replaced_iff_fits hsha hsep]
  have hrepl : replacement b sha1Hex
      (growBigtag bigtag (input.length - parsed.size) parsed.size) (input.take parsed.size) =
        (shortTag sha1Hex k v).map (encodeShort b) := by
    rw [replacement, hfit _ le_rfl]
    dsimp only
    rw [upTo_append_cons hsep, after_append_cons hsep]
  unfold takeTag
  rw [if_pos hparse.2, hslot.1]
  dsimp only
  rw [if_pos hslot.2, hrepl]
  constructor
  · rintro ⟨tag, bigtag', htake, hrest⟩
    refine ⟨tag, ?_, hrest⟩
    cases hshort : (shortTag sha1Hex k v).map (encodeShort b) with
    | error f => simp [hshort] at htake
    | ok r =>
      cases r with
      | none =>
        simp only [hshort, Except.ok.injEq, Prod.mk.injEq] at htake
        have hlen := congrArg (fun s : TagScan => s.tags.length) htake.1
        simp at hlen
      | some tag' =>
        simp only [hshort, Except.ok.injEq, Prod.mk.injEq, TagScan.mk.injEq,
          List.append_cancel_left_eq, List.cons.injEq, and_true] at htake
        rw [htake.1]
  · rintro ⟨tag, hshort, hrest⟩
    refine ⟨tag, growBigtag bigtag (input.length - parsed.size) parsed.size, ?_, hrest⟩
    rw [hshort]

theorem growBigtag_pos {bigtag following tagLen m : Nat} (hbig : m < bigtag) (htag : m < tagLen) :
    m < growBigtag bigtag following tagLen := by
  unfold growBigtag
  split_ifs
  · exact htag
  · exact hbig

theorem long_tag_replaced_value :
    ∃ tag bigtag', takeTag standardBase64 (fun _ => List.replicate 40 48)
        ([97] ++ 58 :: List.replicate 300 98) ⟨302, true, ⟨[], 0⟩⟩ 32768 ⟨[], some 0⟩ =
          .ok (⟨[] ++ [tag], some (0 + 1)⟩, bigtag') ∧
      Replaced standardBase64 (fun _ => List.replicate 40 48) [97] (List.replicate 300 98) tag ∧
      ∀ p ∈ shortTagSubs [97] (List.replicate 300 98), p.2 ≤ p.1 := by
  have hsha : HexDigest fun _ => List.replicate 40 48 := by
    have hall : (List.replicate 40 (48 : UInt8)).all isHexDigit = true := by decide +kernel
    exact fun _ => ⟨List.length_replicate, hall⟩
  refine (@long_tag_replaced_iff standardBase64 _ hsha _ [97] (List.replicate 300 98)
    ⟨302, true, ⟨[], 0⟩⟩ 32768 0 ⟨[], some 0⟩ (by decide +kernel) (by decide) (by decide)
    fun n hn => ?_).mpr ⟨by decide, by decide +kernel, by decide +kernel, fun hq => ?_⟩
  · have hpos : 1 < n := lt_of_lt_of_le (growBigtag_pos (by decide) (by decide)) hn
    have hwhole : ([97] ++ 58 :: List.replicate 300 98 : Bytes).take 302 =
        [97] ++ 58 :: List.replicate 300 98 := by decide +kernel
    dsimp only
    rw [hwhole, decodeTag_eq_some_iff (by decide)]
    exact ⟨[97], List.replicate 300 98, decodePart_plain (by decide), by decide, hpos,
      decodePart_plain (by decide +kernel), rfl⟩
  · exact absurd hq (by decide +kernel)

theorem long_tag_lost :
    takeTag standardBase64 (fun _ => List.replicate 40 48)
        ([98, 34] ++ standardBase64.encode (List.replicate 254 97) ++ [34, 58])
        ⟨344, true, ⟨[], 0⟩⟩ 32768 ⟨[], some 0⟩ = .ok (⟨[], some 0⟩, 32768) ∧
      parseOne ([98, 34] ++ standardBase64.encode (List.replicate 254 97) ++ [34, 58]) =
        some ⟨344, true, ⟨[], 0⟩⟩ ∧
      (2, 3) ∈ shortTagSubs (List.replicate 160 123) (List.replicate 60 120) := by
  decide +kernel

end Reconnoiter
