import Reconnoiter.CanonicalRead
import Reconnoiter.FiltersetBackends
import Reconnoiter.TagSearch

/-! The tag functions that filtersets call on metric names, in the place of those that
`FilterEnv` leaves open. -/

namespace Reconnoiter

def metricParseTags (b : Base64) (sha1Hex : Bytes → Bytes) (input : Bytes) : Option Eaten :=
  if maxMetricTaggedName < input.length then none
  else
    match eatTags b sha1Hex input.length ⟨input, [], [], none⟩ with
    | .ok e => if HasMarker e.name then none else some e
    | .error _ => none

theorem metricParseTags_name {b : Base64} {sha1Hex : Bytes → Bytes} {name : Bytes} (hname : ¬ HasMarker name)
    (hlen : name.length ≤ maxMetricTaggedName) :
    metricParseTags b sha1Hex name = some ⟨name, [], [], none⟩ := by
  simp [metricParseTags, Nat.not_lt.mpr hlen, eatTags_name hname, hname]

/-- Behind a tag of a name stands a comma, a bracket or the end, none of which makes a
difference to a search; here it is the end. -/
def filterTag (t : Tag) : FilterTag := ⟨t.text, t.text.length, t.categorySize⟩

def FilterTag.stored (t : FilterTag) : StoredTag :=
  ⟨⟨t.text.take t.totalSize, t.categorySize⟩, t.text.drop t.totalSize ++ [0]⟩

/-- What is linked in from elsewhere. `leftover` is what a call that fails leaves in the
buffer for its result. -/
structure FilterLibs (Re : Type) where
  b64 : Base64
  qsort : QSort (id : Bytes → Bytes)
  sha1Hex : Bytes → Bytes
  pcreCompile : Bytes → Option Re
  pcreExec : Re → Bytes → Bool
  searchParse : Bytes → Option (SearchAst TagMatch)
  leftover : Bytes → Bytes

variable {Re : Type}

def FilterLibs.evaluate (l : FilterLibs Re) (search : SearchAst TagMatch) (set : List FilterTag) :
    Option Bool :=
  search.evaluate fun m => matchEvaluateAgainstTagsMulti l.b64 m [set.map fun t => some t.stored]

def FilterLibs.env (l : FilterLibs Re) : FilterEnv Re (SearchAst TagMatch) where
  pcreCompile := l.pcreCompile
  pcreExec := l.pcreExec
  searchParse := l.searchParse
  evaluateAgainstTags search set := (l.evaluate search set).getD false
  parseTags input :=
    (metricParseTags l.b64 l.sha1Hex input).map fun e =>
      (e.name.length, e.stags.map filterTag, e.mtags.map filterTag)
  encodeTag decoded :=
    match encodeTag l.b64 (maxPairLen + 1) decoded with
    | .ok text => (text.length, text)
    | .error code => ((2 ^ 64 + code).toNat, l.leftover decoded)
  canonicalize input :=
    match canonicalize l.b64 l.qsort l.sha1Hex maxMetricTaggedName input with
    | .ok name => (name.length, name)
    | .error (.ret code) => (code, l.leftover input)
    -- A failed assertion ends the process, and nothing is done with the result.
    | .error .abort => (0, [])

theorem parseTags_name (l : FilterLibs Re) {name : Bytes} (hname : ¬ HasMarker name) :
    (l.env.parseTags name).getD (name.length, [], []) = (name.length, [], []) := by
  by_cases hlen : name.length ≤ maxMetricTaggedName
  · simp [FilterLibs.env, metricParseTags_name hname hlen]
  · simp [FilterLibs.env, metricParseTags, Nat.lt_of_not_le hlen]

def plainLibs : FilterLibs Unit where
  b64 := standardBase64
  qsort := insertionQSort id
  sha1Hex _ := List.replicate 40 48
  pcreCompile _ := none
  pcreExec _ _ := false
  searchParse _ := none
  leftover _ := []

end Reconnoiter
