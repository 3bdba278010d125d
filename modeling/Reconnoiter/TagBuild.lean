import Reconnoiter.TagParse
import Reconnoiter.TagRoundTrip

/-! `build_tags` of `noit_metric.c`: the tags of one block, in which a tag too
long for a pair is replaced by one that ends in a digest of what was cut. -/

namespace Reconnoiter

inductive Fault where
  | ret (code : Int)
  | abort
  deriving DecidableEq, Repr

def maxTags : Nat := 256

def maxTagReplacements : Nat := 32

def tagReplSuffixLeader : Bytes := [95, 116, 108, 100, 114, 95]

def shaDigestLength : Nat := 20

def tagReplSuffixLen : Nat := 2 * shaDigestLength + tagReplSuffixLeader.length

def subSize (m n : Nat) : Nat := if n ≤ m then m - n else 2 ^ 64 - (n - m)

def encodeLen (b64 : Bool) (n : Nat) : Nat := if b64 then (n + 2) / 3 * 4 + 3 else n

def decodeLen (b64 : Bool) (n : Nat) : Nat :=
  if b64 then subSize (subSize n 3 / 4 * 3) 2 else n

def shorten (sha1Hex : Bytes → Bytes) (tgtsize : Nat) (text part : Bytes) : Except Fault Bytes :=
  if tgtsize ≥ tagReplSuffixLen then
    .ok (text.take (tgtsize - tagReplSuffixLen) ++ tagReplSuffixLeader ++ sha1Hex part)
  else .error .abort

def shortKeySize (keyB64 valB64 : Bool) (tvalLen : Nat) : Nat :=
  let tgtsize := decodeLen keyB64 maxCatLen
  let tgtsize :=
    if tvalLen + 1 > decodeLen keyB64 (maxPairLen - maxCatLen) then
      min tgtsize (decodeLen keyB64 (maxPairLen / 2))
    else tgtsize
  if encodeLen keyB64 tgtsize + encodeLen valB64 tagReplSuffixLen + 1 > maxPairLen then
    decodeLen keyB64 (subSize (subSize maxPairLen (encodeLen valB64 tagReplSuffixLen)) 1)
  else tgtsize

def shortTag (sha1Hex : Bytes → Bytes) (tkey tval : Bytes) : Except Fault Bytes := do
  let keyB64 := !isTaggableKey tkey
  let valB64 := !isTaggableValue tval
  let valRoom := min (encodeLen valB64 tval.length) (encodeLen valB64 tagReplSuffixLen)
  let key ←
    if encodeLen keyB64 tkey.length > min (subSize (subSize maxPairLen valRoom) 1) maxCatLen then
      shorten sha1Hex (shortKeySize keyB64 valB64 tval.length) (tkey ++ tagSep :: tval) tkey
    else .ok tkey
  let room := subSize (subSize maxPairLen (encodeLen keyB64 key.length)) 1
  let value ←
    if encodeLen valB64 tval.length > room then
      shorten sha1Hex (decodeLen valB64 room) tval tval
    else .ok tval
  return key ++ tagSep :: value

/-- The tags of one kind found so far, and how many replacements are in use;
`none` when the caller passes no room for replacements. -/
structure TagScan where
  tags : List Tag
  repl : Option Nat
  deriving DecidableEq, Repr

def encodeShort (b : Base64) (short : Bytes) : Option Tag :=
  match encodeTag b (maxPairLen + 1) short with
  | .error _ => none
  | .ok newtag =>
    let categorySize := (upTo 58 newtag).length + 1
    if categorySize ≤ maxCatLen then some ⟨newtag, categorySize⟩ else none

/-- What stands in for a tag of the given text, which is decoded into a buffer
of `bigtag` bytes; a tag that cannot be replaced is left out. -/
def replacement (b : Base64) (sha1Hex : Bytes → Bytes) (bigtag : Nat) (text : Bytes) :
    Except Fault (Option Tag) :=
  match decodeTag b bigtag text with
  | none => .ok none
  | some decoded =>
    (shortTag sha1Hex (upTo tagSep decoded) (after tagSep decoded)).map (encodeShort b)

def growBigtag (bigtag following tagLen : Nat) : Nat :=
  if following > bigtag then tagLen else bigtag

def takeTag (b : Base64) (sha1Hex : Bytes → Bytes) (input : Bytes) (parsed : ParsedTag)
    (bigtag : Nat) (st : TagScan) : Except Fault (TagScan × Nat) :=
  if parsed.tooLong then
    match st.repl with
    | none => .ok (st, bigtag)
    | some used =>
      if used < maxTagReplacements then
        let bigtag := growBigtag bigtag (input.length - parsed.size) parsed.size
        match replacement b sha1Hex bigtag (input.take parsed.size) with
        | .error e => .error e
        | .ok none => .ok (st, bigtag)
        | .ok (some tag) => .ok (⟨st.tags ++ [tag], some (used + 1)⟩, bigtag)
      else .ok (st, bigtag)
  else .ok (⟨st.tags ++ [parsed.tag], st.repl⟩, bigtag)

/-- The loop of `build_tags`. Every tag takes a byte of the input at least, so
the length of the input is fuel enough. -/
def buildTagsLoop (b : Base64) (sha1Hex : Bytes → Bytes) (max : Nat) :
    Nat → Bytes → Nat → TagScan → Except Fault (Bool × TagScan)
  | 0, _, _, st => .ok (true, st)
  | fuel + 1, input, bigtag, st =>
    if input.length = 0 ∨ st.tags.length ≥ max then .ok (true, st)
    else
      match parseOne input with
      | none => .ok (false, st)
      | some parsed =>
        match takeTag b sha1Hex input parsed bigtag st with
        | .error e => .error e
        | .ok (st, bigtag) =>
          match input.drop parsed.size with
          | [] => .ok (true, st)
          | c :: rest =>
            if c ≠ 44 ∨ rest.length = 0 then .ok (false, st)
            else buildTagsLoop b sha1Hex max fuel rest bigtag st

def buildTags (b : Base64) (sha1Hex : Bytes → Bytes) (max : Nat) (input : Bytes) (st : TagScan) :
    Except Fault (Bool × TagScan) :=
  buildTagsLoop b sha1Hex max input.length input 32768 st

theorem length_takeTag {b : Base64} {sha1Hex : Bytes → Bytes} {input : Bytes} {parsed : ParsedTag}
    {bigtag bigtag' : Nat} {st st' : TagScan}
    (h : takeTag b sha1Hex input parsed bigtag st = .ok (st', bigtag')) :
    st'.tags.length ≤ st.tags.length + 1 := by
  unfold takeTag at h
  split_ifs at h
  · split at h
    · obtain ⟨rfl, _⟩ := Prod.mk.inj (Except.ok.inj h)
      omega
    · split_ifs at h
      · simp only at h
        split at h
        · exact absurd h (by simp)
        · obtain ⟨rfl, _⟩ := Prod.mk.inj (Except.ok.inj h)
          omega
        · obtain ⟨rfl, _⟩ := Prod.mk.inj (Except.ok.inj h)
          simp
      · obtain ⟨rfl, _⟩ := Prod.mk.inj (Except.ok.inj h)
        omega
  · obtain ⟨rfl, _⟩ := Prod.mk.inj (Except.ok.inj h)
    simp

theorem length_buildTagsLoop {b : Base64} {sha1Hex : Bytes → Bytes} {max fuel bigtag : Nat}
    {input : Bytes} {st st' : TagScan} {r : Bool} (hst : st.tags.length ≤ max)
    (h : buildTagsLoop b sha1Hex max fuel input bigtag st = .ok (r, st')) :
    st'.tags.length ≤ max := by
  induction fuel generalizing input bigtag st with
  | zero =>
    obtain ⟨_, rfl⟩ := Prod.mk.inj (Except.ok.inj h)
    exact hst
  | succ fuel ih =>
    unfold buildTagsLoop at h
    split_ifs at h with hstop
    · obtain ⟨_, rfl⟩ := Prod.mk.inj (Except.ok.inj h)
      exact hst
    · split at h
      · obtain ⟨_, rfl⟩ := Prod.mk.inj (Except.ok.inj h)
        exact hst
      · split at h
        · exact absurd h (by simp)
        · rename_i st₁ bigtag₁ ht
          have hlen := length_takeTag ht
          split at h
          · obtain ⟨_, rfl⟩ := Prod.mk.inj (Except.ok.inj h)
            omega
          · split_ifs at h
            · obtain ⟨_, rfl⟩ := Prod.mk.inj (Except.ok.inj h)
              omega
            · exact ih (by omega) h

def isTagDelimiter (c : UInt8) : Bool := c == 44 || c == 93 || c == 124 || c == 125

structure TagText where
  key : Bytes
  val : Bytes
  colon_key : 58 ∉ key
  chars : ∀ c ∈ key ++ val, isTagDelimiter c = false
  length_le : (key ++ 58 :: val).length ≤ maxPairLen

namespace TagText

def text (t : TagText) : Bytes := t.key ++ 58 :: t.val

def tag (t : TagText) : Tag := ⟨t.text, (t.key.length + 1) % 256⟩

def Readable (t : TagText) : Prop :=
  t.key ≠ [] ∧ isTaggableKey t.key = true ∧ isTaggableValue t.val = true

theorem not_mem_key (t : TagText) {c : UInt8} (h : isTagDelimiter c = true) : c ∉ t.key := by
  intro hm
  have hc := t.chars c (List.mem_append_left _ hm)
  rw [h] at hc
  exact absurd hc (by simp)

theorem not_mem_val (t : TagText) {c : UInt8} (h : isTagDelimiter c = true) : c ∉ t.val := by
  intro hm
  have hc := t.chars c (List.mem_append_right _ hm)
  rw [h] at hc
  exact absurd hc (by simp)

theorem not_mem_text (t : TagText) {c : UInt8} (h : isTagDelimiter c = true) : c ∉ t.text := by
  have hcolon : c ≠ 58 := by
    rintro rfl
    exact absurd h (by decide)
  simp [text, t.not_mem_key h, t.not_mem_val h, hcolon]

theorem text_ne_nil (t : TagText) : t.text ≠ [] := by simp [text]

def join (l : List TagText) : Bytes := [44].intercalate (l.map text)

theorem join_cons_cons (t t' : TagText) (l : List TagText) :
    join (t :: t' :: l) = t.text ++ 44 :: join (t' :: l) := by
  simp [join, List.intercalate_cons_cons]

theorem not_mem_join (l : List TagText) {c : UInt8} (hc : c ≠ 44) (h : isTagDelimiter c = true) :
    c ∉ join l := by
  induction l with
  | nil => simp [join]
  | cons t l ih =>
    cases l with
    | nil => simpa [join] using t.not_mem_text h
    | cons t' l =>
      rw [join_cons_cons]
      simp [t.not_mem_text h, hc, ih]

theorem join_ne_nil (t : TagText) (l : List TagText) : join (t :: l) ≠ [] := by
  cases l with
  | nil => simpa [join] using t.text_ne_nil
  | cons t' l => simp [join_cons_cons]

end TagText

theorem parseOne_text (t : TagText) {rest : Bytes} (hrest : rest = [] ∨ ∃ r, rest = 44 :: r) :
    (∀ parsed, parseOne (t.text ++ rest) = some parsed → parsed = ⟨t.text.length, false, t.tag⟩) ∧
    (t.Readable → parseOne (t.text ++ rest) = some ⟨t.text.length, false, t.tag⟩) := by
  unfold TagText.Readable
  rw [TagText.text, parseOne_colon t.colon_key (t.not_mem_key (by decide)) (t.not_mem_val (by decide))
    t.length_le hrest]
  split_ifs with hc
  · exact ⟨fun _ h => (Option.some.inj h).symm, fun _ => rfl⟩
  · refine ⟨by simp, ?_⟩
    rintro ⟨hk, htk, htv⟩
    exact absurd ⟨hk, htk, Or.inr htv⟩ hc

theorem buildTagsLoop_join (b : Base64) (sha1Hex : Bytes → Bytes) {max fuel bigtag : Nat}
    {st : TagScan} (l : List TagText) (hfuel : (TagText.join l).length ≤ fuel)
    (hmax : st.tags.length + l.length ≤ max) :
    ∃ r st', buildTagsLoop b sha1Hex max fuel (TagText.join l) bigtag st = .ok (r, st') ∧
      (r = true → st' = ⟨st.tags ++ l.map TagText.tag, st.repl⟩) ∧
      ((∀ t ∈ l, t.Readable) → r = true) := by
  induction l generalizing fuel st with
  | nil =>
    refine ⟨true, st, ?_, by simp, by simp⟩
    cases fuel <;> simp [buildTagsLoop, TagText.join]
  | cons t l ih =>
    have hne := TagText.join_ne_nil t l
    obtain ⟨fuel, rfl⟩ : ∃ n, fuel = n + 1 := by
      have hpos := List.length_pos_iff.mpr hne
      exact ⟨fuel - 1, by omega⟩
    simp only [List.length_cons] at hmax
    -- What follows the first text, with the comma.
    obtain ⟨rest, hrest, hsplit⟩ : ∃ rest, (rest = [] ∨ ∃ r, rest = 44 :: r) ∧
        TagText.join (t :: l) = t.text ++ rest := by
      cases l with
      | nil => exact ⟨[], Or.inl rfl, by simp [TagText.join]⟩
      | cons t' l => exact ⟨_, Or.inr ⟨_, rfl⟩, TagText.join_cons_cons t t' l⟩
    obtain ⟨hsound, hread⟩ := parseOne_text t hrest
    rw [buildTagsLoop, if_neg (by simp only [List.length_eq_zero_iff, hne, false_or]; omega), hsplit]
    cases hp : parseOne (t.text ++ rest) with
    | none =>
      refine ⟨false, st, rfl, by simp, fun hall => ?_⟩
      rw [hread (hall t (by simp))] at hp
      exact absurd hp (by simp)
    | some parsed =>
      rw [hsound parsed hp]
      simp only [takeTag, Bool.false_eq_true, if_false, List.drop_left]
      cases l with
      | nil =>
        have hr : rest = [] := by simpa [TagText.join] using hsplit
        rw [hr]
        exact ⟨true, _, rfl, fun _ => by simp, fun _ => rfl⟩
      | cons t' l =>
        have hr : rest = 44 :: TagText.join (t' :: l) := by
          rw [TagText.join_cons_cons] at hsplit
          exact (List.append_cancel_left hsplit).symm
        have hlen : (TagText.join (t' :: l)).length ≤ fuel := by
          rw [TagText.join_cons_cons, List.length_append, List.length_cons] at hfuel
          omega
        have hmax' : (st.tags ++ [t.tag]).length + (t' :: l).length ≤ max := by
          simp only [List.length_append, List.length_singleton]
          omega
        obtain ⟨r, st', he, htrue, hall⟩ := @ih fuel ⟨st.tags ++ [t.tag], st.repl⟩ hlen hmax'
        rw [hr]
        simp only
        rw [if_neg (by simp [TagText.join_ne_nil]), he]
        refine ⟨r, st', rfl, fun h => ?_, fun h => hall fun u hu => h u (by simp [hu])⟩
        rw [htrue h]
        simp

end Reconnoiter
