import Reconnoiter.CanonicalMeaning
import Reconnoiter.TagsetBuilder

/-! `noit_metric_id_process_tags` of `noit_message_decoder.c`, the other way to a
canonical metric name: the blocks are taken off the end into tag set builders,
and a name that is not yet as the builders write it is rewritten and read once
more. Names hold no NUL byte. -/

namespace Reconnoiter

abbrev TagBuilder := Option (List Tag)

/-- The text lies before `behind`. In a name the loop always ends, since no tag
there has a size that cannot be stored. -/
def TagBuilder.addMany (builder : TagBuilder) (str behind : Bytes) : TagBuilder :=
  builder.bind fun tags => (addManyRun (str.length + 1) (.start str behind tags)).join

/-- `noit_metric_extract_tags`: the shortened name, when a block was taken off. -/
def extractTags (opening : Bytes) (endMarker : UInt8) (name : Bytes) (builder : TagBuilder) :
    Option Bytes × TagBuilder :=
  match blockStart opening 0 name with
  | none => (none, builder)
  | some start =>
    if name.getLast? ≠ some endMarker then (none, builder)
    else if start + opening.length = name.length - 1 then
      (some (name.take (name.length - (opening.length + 1))), builder)
    else
      match builder.addMany (name.drop (start + opening.length)).dropLast [endMarker] with
      | none => (none, none)
      | some tags => (some (name.take start), some tags)

structure Extracted where
  name : Bytes
  stream : TagBuilder
  measurement : TagBuilder
  deriving DecidableEq, Repr

def extractAll : Nat → Extracted → Extracted
  | 0, e => e
  | fuel + 1, e =>
    match extractTags stOpen 93 e.name e.stream with
    | (some name, stream) => extractAll fuel ⟨name, stream, e.measurement⟩
    | (none, stream) =>
      match extractTags mtOpen 125 e.name e.measurement with
      | (some name, measurement) => extractAll fuel ⟨name, stream, measurement⟩
      | (none, measurement) => ⟨e.name, stream, measurement⟩

def extractName (name : Bytes) : Extracted := extractAll name.length ⟨name, some [], some []⟩

def Tag.compareKey (b : Base64) (t : Tag) : Bytes := (decodeTag b maxPairLen t.text).getD []

def compactTags {b : Base64} (q : QSort (Tag.compareKey b)) (tags : List Tag) : List Tag :=
  if tags.length ≤ 1 then tags
  else
    match q.run tags with
    | [] => []
    | t :: l => squashFrom (Tag.compareKey b) t l

def tagCanonicalSize (b : Base64) (t : Tag) : Nat :=
  match canonicalTag b false t.text with
  | .ok text => text.length
  | .error _ => 0

def canonicalSize (b : Base64) (tags : List Tag) : Nat :=
  (tags.map (tagCanonicalSize b)).sum + (tags.length - 1)

def tagsetFromTags (b : Base64) (tags : List Tag) : Option Bytes :=
  (tagsCanonical b false (tags.map Tag.text) (canonicalSize b tags)).filter
    (·.length = canonicalSize b tags)

def builderEnd {b : Base64} (q : QSort (Tag.compareKey b)) : TagBuilder → Option Bytes
  | none => none
  | some [] => none
  | some (t :: tags) => tagsetFromTags b (compactTags q (t :: tags))

def canonBlock (opening closing : Bytes) : Option Bytes → Bytes
  | none => []
  | some text => opening ++ (text ++ closing)

def nameRefused (name : Bytes) : Prop := name = [] ∨ HasMarker name

instance (name : Bytes) : Decidable (nameRefused name) := inferInstanceAs (Decidable (_ ∨ _))

def processTags {b : Base64} (q : QSort (Tag.compareKey b)) (name : Bytes) : Option Bytes :=
  if name.length > maxMetricTaggedName then none
  else
    let e := extractName name
    let blocks := canonBlock stOpen stClose (builderEnd q e.stream) ++
      canonBlock mtOpen mtClose (builderEnd q e.measurement)
    if (e.name ++ blocks).length > name.length then none
    else if (e.name ++ blocks).length ≥ maxMetricTaggedName - 1 then none
    else if nameIsClean e.name = false ∨ e.name ++ blocks ≠ name then
      let rewritten := cleanName e.name ++ blocks
      if nameRefused (extractName rewritten).name then none else some rewritten
    else if nameRefused e.name then none
    else some name

end Reconnoiter
