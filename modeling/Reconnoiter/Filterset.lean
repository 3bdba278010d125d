import Mathlib.Data.Fintype.Basic
import Reconnoiter.CheckLog
import Reconnoiter.FiltersetLmdb

/-! Filterset rules and their application to the metrics of a check. A rule matches on
four fields, each by a hash table or a regular expression, and may add what it misses
to its tables until they are flushed. -/

namespace Reconnoiter

structure FilterTag where
  text : Bytes
  totalSize : Nat
  categorySize : Nat
deriving DecidableEq

/-- What the filters call: pcre, the tag searches, and the tag functions on metric names.
`canonicalize` and `encodeTag` return their result and the text left in the buffer. -/
structure FilterEnv (Re Ast : Type) where
  pcreCompile : Bytes → Option Re
  pcreExec : Re → Bytes → Bool
  searchParse : Bytes → Option Ast
  evaluateAgainstTags : Ast → List FilterTag → Bool
  parseTags : Bytes → Option (Nat × List FilterTag × List FilterTag)
  encodeTag : Bytes → Nat × Bytes
  canonicalize : Bytes → Int × Bytes

inductive RuleType where
  | accept
  | deny
  | skipto
  | addMeasurementTag
deriving DecidableEq

inductive Field where
  | target
  | module
  | name
  | metric
deriving DecidableEq

instance : Fintype Field := ⟨{.target, .module, .name, .metric}, by intro f; cases f <;> decide⟩

/-- One field of a rule. `override` stands for the expression that never matches. -/
structure Matcher (Re : Type) where
  ht : Option (Finset Bytes)
  autoHashMax : Int
  re : Option Re
  override : Bool

structure FilterRule (Re Ast : Type) where
  ruleid : Option Bytes
  skipto : Option Bytes
  /-- The place in the list of the rule skipped to. -/
  skiptoRule : Option Nat
  tagCat : Option Bytes
  tagVal : Option Bytes
  type : RuleType
  matcher : Field → Matcher Re
  stsearch : Option Ast
  mtsearch : Option Ast
  lastFlush : TimeVal
  flushInterval : TimeVal

structure FilterCheck where
  target : Bytes
  module : Bytes
  name : Bytes

structure FilterMetric where
  metricName : Bytes
  expandedMetricName : Option Bytes
deriving DecidableEq

def FilterMetric.fullName (m : FilterMetric) : Bytes := m.expandedMetricName.getD m.metricName

structure FilterCall where
  check : FilterCheck
  metric : FilterMetric
  now : TimeVal
  mlen : Nat
  stset : List FilterTag

def Field.value (check : FilterCheck) (metric : FilterMetric) : Field → Bytes
  | .target => check.target
  | .module => check.module
  | .name => check.name
  | .metric => metric.metricName

def FilterCall.value (c : FilterCall) : Field → Bytes := Field.value c.check c.metric

structure FilterState where
  skiptoRule : Option Nat
  mtset : List FilterTag
  expandedMetricName : Option Bytes
  mtModified : Bool

inductive RuleResult where
  | next (st : FilterState)
  | stop (ret : Bool)

section Apply

variable {Re Ast : Type} (env : FilterEnv Re Ast)

def Matcher.exec (m : Matcher Re) (subj : Bytes) : Bool :=
  match m.re with
  | some p => env.pcreExec p subj
  | none => !m.override

def Matcher.applyFilterrule (m : Matcher Re) (subj : Bytes) : Bool :=
  match m.ht with
  | some t => decide (subj ∈ t)
  | none => m.exec env subj

def emptyStreamTags : Bytes := stOpen ++ stClose

def withEmptyTags (name : Bytes) : Bytes := (name ++ emptyStreamTags).take (maxMetricTaggedName - 1)

/-- The second text a metric's name is looked up as: a name that ends at its measured length gets an
empty block of stream tags. -/
def lookedUp (name : Bytes) (mlen : Nat) : Bytes := if name.getD mlen 0 = 0 then withEmptyTags name else name

def FilterRule.applyFilterruleMetric (r : FilterRule Re Ast) (subj : Bytes) (subjLen : Nat)
    (stset mtset : List FilterTag) : Bool :=
  match (r.matcher .metric).ht with
  | some t =>
    -- A name without tags may have been given as one with an empty block.
    decide (subj.take subjLen ∈ t) || decide (lookedUp subj subjLen ∈ t)
  | none =>
    (r.matcher .metric).exec env (subj.take subjLen) &&
      r.stsearch.all (env.evaluateAgainstTags · stset) &&
      r.mtsearch.all (env.evaluateAgainstTags · mtset)

def FilterRule.need (c : FilterCall) (mtset : List FilterTag) (r : FilterRule Re Ast) : Field → Bool
  | .metric => !r.applyFilterruleMetric env c.metric.metricName c.mlen c.stset mtset
  | f => !(r.matcher f).applyFilterrule env (c.value f)

def addMeasurementTag (metric : FilterMetric) (r : FilterRule Re Ast) (st : FilterState) : FilterState :=
  match r.tagCat with
  | none => st
  | some cat =>
    if maxTags ≤ st.mtset.length then st
    else
      let encoded := env.encodeTag ((cat ++ tagSep :: r.tagVal.getD []).take maxPairLen)
      if st.mtset.any (fun t => t.totalSize = encoded.1 ∧ t.text.take encoded.1 = encoded.2.take encoded.1)
      then st
      else
        { st with
          expandedMetricName :=
            some (st.expandedMetricName.getD metric.fullName ++ mtOpen ++ encoded.2 ++ mtClose)
          mtset := st.mtset ++ [⟨encoded.2, encoded.1, cat.length - 1⟩]
          mtModified := true }

def FilterRule.taken (metric : FilterMetric) (r : FilterRule Re Ast) (st : FilterState) : RuleResult :=
  match r.type with
  | .skipto => .next { st with skiptoRule := r.skiptoRule }
  | .addMeasurementTag => .next (addMeasurementTag env metric r st)
  | .accept => .stop true
  | .deny => .stop false

def addTimeval (a b : TimeVal) : TimeVal :=
  if 1000000 ≤ a.usec + b.usec then ⟨a.sec + b.sec + 1, a.usec + b.usec - 1000000⟩
  else ⟨a.sec + b.sec, a.usec + b.usec⟩

def Matcher.flushed (m : Matcher Re) : Matcher Re :=
  if m.autoHashMax = 0 then m else { m with ht := m.ht.map fun _ => ∅ }

def FilterRule.flush (now : TimeVal) (r : FilterRule Re Ast) : FilterRule Re Ast :=
  if r.flushInterval = .zero then r
  else if now.before (addTimeval r.lastFlush r.flushInterval) then r
  else { r with matcher := fun f => (r.matcher f).flushed, lastFlush := now }

def Matcher.checkAdd (need : Bool) (m : Matcher Re) : Bool :=
  !need || (0 < m.autoHashMax && m.ht.any fun t => t.card < m.autoHashMax)

def Matcher.update (need : Bool) (value : Bytes) (m : Matcher Re) : Matcher Re :=
  if need then { m with ht := m.ht.map (insert value) } else m

def applyRule (c : FilterCall) (r : FilterRule Re Ast) (st : FilterState) : FilterRule Re Ast × RuleResult :=
  let need := r.need env c st.mtset
  if ∀ f, need f = false then (r, r.taken env c.metric st)
  else
    let r := r.flush c.now
    -- What is missing is what the tables held before the flush.
    if ∀ f, (r.matcher f).checkAdd (need f) then
      match r.taken env c.metric st with
      | .next st => (r, .next st)
      | .stop ret => ({ r with matcher := fun f => (r.matcher f).update (need f) (c.value f) }, .stop ret)
    else (r, .next st)

def applyRules (c : FilterCall) :
    Nat → List (FilterRule Re Ast) → FilterState → List (FilterRule Re Ast) × Option Bool × FilterState
  | _, [], st => ([], none, st)
  | i, r :: rs, st =>
    if st.skiptoRule.any (· ≠ i) then
      let rest := applyRules c (i + 1) rs st
      (r :: rest.1, rest.2)
    else
      match applyRule env c r { st with skiptoRule := none } with
      | (r, .stop ret) => (r :: rs, some ret, st)
      | (r, .next st) =>
        let rest := applyRules c (i + 1) rs st
        (r :: rest.1, rest.2)

def updateMetricName (expanded : Bytes) (metric : FilterMetric) : FilterMetric :=
  if (env.canonicalize expanded).1 = 0 then metric
  else { metric with expandedMetricName := some (env.canonicalize expanded).2 }

def nameTagCat : Bytes := [95, 95, 110, 97, 109, 101]

def withNameTag (stset : List FilterTag) (name : Bytes) : List FilterTag :=
  if stset.length < maxTags - 1 then
    let encoded := env.encodeTag ((nameTagCat ++ tagSep :: name).take maxPairLen)
    stset ++ [⟨encoded.2, encoded.1, 7⟩]
  else stset

structure FilterEvent where
  check : FilterCheck
  metric : FilterMetric
  now : TimeVal

def applyFilterset (rules : List (FilterRule Re Ast)) (e : FilterEvent) :
    List (FilterRule Re Ast) × Bool × FilterMetric :=
  let name := e.metric.fullName
  let tags := (env.parseTags (name.take e.metric.metricName.length)).getD (name.length, [], [])
  let c : FilterCall := ⟨e.check, e.metric, e.now, tags.1, withNameTag env tags.2.1 (name.take tags.1)⟩
  match applyRules env c 0 rules ⟨none, tags.2.2, none, false⟩ with
  | (rules, none, _) => (rules, false, e.metric)
  | (rules, some ret, st) =>
    (rules, ret, if st.mtModified then updateMetricName env (st.expandedMetricName.getD name) e.metric
      else e.metric)

def runFilterset : List (FilterRule Re Ast) → List FilterEvent → List (Bool × FilterMetric)
  | _, [] => []
  | rules, e :: es => (applyFilterset env rules e).2 :: runFilterset (applyFilterset env rules e).1 es

end Apply

end Reconnoiter
