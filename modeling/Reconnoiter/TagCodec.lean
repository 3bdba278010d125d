import Reconnoiter.Base64

/-! The tag codec of `noit_metric.c`. The encoder decides part by part, from
character tables, between plain text and `b"..."`; the decoder recognises
`b"..."` by its shape. -/

namespace Reconnoiter

def maxPairLen : Nat := 256

def maxCatLen : Nat := 254

def tagSep : UInt8 := 0x1f

def vtagmapKey : List Nat := [
  0,0,0,0,0,0,0,0,0,0,0,0,0,0,0,0,0,0,0,0,0,0,0,0,0,0,0,0,0,0,0,0,
  0,1,1,1,1,1,1,1,0,0,0,1,0,1,1,1,1,1,1,1,1,1,1,1,1,1,0,0,0,0,0,1,
  1,1,1,1,1,1,1,1,1,1,1,1,1,1,1,1,1,1,1,1,1,1,1,1,1,1,1,0,0,0,1,1,
  1,1,1,1,1,1,1,1,1,1,1,1,1,1,1,1,1,1,1,1,1,1,1,1,1,1,1,0,0,0,0,0]

def vtagmapValue : List Nat := [
  0,0,0,0,0,0,0,0,0,0,0,0,0,0,0,0,0,0,0,0,0,0,0,0,0,0,0,0,0,0,0,0,
  0,1,1,1,1,1,1,1,0,0,0,0,0,1,1,1,1,1,1,1,1,1,1,1,1,1,1,0,0,1,0,1,
  1,1,1,1,1,1,1,1,1,1,1,1,1,1,1,1,1,1,1,1,1,1,1,1,1,1,1,0,0,0,1,1,
  1,1,1,1,1,1,1,1,1,1,1,1,1,1,1,1,1,1,1,1,1,1,1,1,1,1,1,0,0,0,0,0]

def base64Vtagmap : List Nat := [
  0,0,0,0,0,0,0,0,0,0,0,0,0,0,0,0,0,0,0,0,0,0,0,0,0,0,0,0,0,0,0,0,
  0,0,0,0,0,0,0,0,0,0,0,1,0,0,0,1,1,1,1,1,1,1,1,1,1,1,0,0,0,1,0,0,
  0,1,1,1,1,1,1,1,1,1,1,1,1,1,1,1,1,1,1,1,1,1,1,1,1,1,1,0,0,0,0,0,
  0,1,1,1,1,1,1,1,1,1,1,1,1,1,1,1,1,1,1,1,1,1,1,1,1,1,1,0,0,0,0,0]

-- The four rows of each table from 128 on hold zeros only.
def isTaggableKeyChar (c : UInt8) : Bool := vtagmapKey.getD c.toNat 0 == 1

def isTaggableValueChar (c : UInt8) : Bool := vtagmapValue.getD c.toNat 0 == 1

def isTaggableB64Char (c : UInt8) : Bool := base64Vtagmap.getD c.toNat 0 == 1

def b64Open : Bytes := [98, 34]

def isTaggablePart (tf : UInt8 → Bool) (key : Bytes) : Bool :=
  if key.length ≥ 3 && b64Open.isPrefixOf key then
    if key.getLast? == some 34 then (key.drop 2).dropLast.all isTaggableB64Char else false
  else key.all tf

def isTaggableKey (key : Bytes) : Bool := isTaggablePart isTaggableKeyChar key

def isTaggableValue (val : Bytes) : Bool :=
  val.length == 0 || val == [98, 34, 34] || isTaggablePart isTaggableValueChar val

inductive EncodeType where
  | default
  | exact
  | regex
  deriving DecidableEq, Repr

def EncodeType.char : EncodeType → UInt8
  | .default => 34
  | .exact => 33
  | .regex => 47

def needsB64 (tf : UInt8 → Bool) (force : Bool) (part : Bytes) : Bool :=
  force || part.any (fun c => !tf c)

def partLen (need : Bool) (part : Bytes) : Nat :=
  if need then (part.length + 2) / 3 * 4 + 3 else part.length

def writePart (b : Base64) (room : Nat) (q : UInt8) (need : Bool) (part : Bytes) : Option Bytes :=
  if need then
    match b.encodeInto (room - 2) part with
    | [] => none
    | text => some (98 :: q :: (text ++ [q]))
  else some part

def encodeTagEx (b : Base64) (maxLen : Nat) (decoded : Bytes) (forSearch : Bool)
    (left right : EncodeType) : Except Int Bytes :=
  if maxLen > maxPairLen + 1 then .error (-1)
  else if decoded.length < 1 then .error (-2)
  else
    let key := upTo tagSep decoded
    let value := after tagSep decoded
    if key.length = 0 then .error (-3)
    else
      -- Outside a search the quote is always a double one.
      let left := if forSearch then left else .default
      let right := if forSearch then right else .default
      let first := needsB64 isTaggableKeyChar
        (forSearch && (left == .exact || decoded.head? == some 47)) key
      let second := key.length < decoded.length && needsB64 isTaggableValueChar
        (forSearch && (right == .exact || value.head? == some 47)) value
      if partLen first key + partLen second value + 1 > maxLen then .error (-4)
      else
        match writePart b (maxPairLen + 1) left.char first key with
        | none => .error (-5)
        | some k =>
          match writePart b (maxPairLen + 1 - (k.length + 1)) right.char second value with
          | none => .error (-6)
          | some v => .ok (k ++ 58 :: v)

def encodeTag (b : Base64) (maxLen : Nat) (decoded : Bytes) : Except Int Bytes :=
  encodeTagEx b maxLen decoded false .default .default

/-- A part of two bytes makes the encoded length wrap around to the largest
size, for which no buffer has room, so nothing is decoded. -/
def decodePart (b : Base64) (room : Nat) (part : Bytes) : Option Bytes :=
  if b64Open.isPrefixOf part then
    if part.getLast? ≠ some 34 then none
    else if part.length = 2 then some []
    else b.decodeInto room (part.drop 2).dropLast
  else some part

/-- `none` stands for the return value 0, which reports a failure. -/
def decodeTag (b : Base64) (maxLen : Nat) (encoded : Bytes) : Option Bytes :=
  match decodePart b maxLen (upTo 58 encoded) with
  | none => none
  | some k =>
    -- The separator could have been stashed in an encoded key.
    if tagSep ∈ k then none
    else if k.length ≥ maxLen then none
    else
      match decodePart b (maxLen - (k.length + 1)) (after 58 encoded) with
      | none => none
      | some v => some (k ++ tagSep :: v)

end Reconnoiter
