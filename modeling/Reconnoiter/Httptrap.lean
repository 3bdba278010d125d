import Reconnoiter.MetricValue

/-! The callbacks by which the httptrap module reads a JSON payload (`httptrap.c`), for checks
in asynchronous mode: every scalar is set in the statistics of the check and logged at once. -/

namespace Reconnoiter

inductive Scalar where
  | null
  | boolean (value : Bool)
  | number (value : Bytes)
  | string (value : Bytes)
  deriving DecidableEq

inductive Json where
  | leaf (value : Scalar)
  | array (items : List Json)
  | object (members : List (Bytes × Json))

inductive JsonEvent where
  | leaf (value : Scalar)
  | startMap
  | mapKey (key : Bytes)
  | endMap
  | startArray
  | endArray

inductive SpecialKey where
  | ts
  | flags
  | tags
  deriving DecidableEq

/-- The parts of `rest_json_payload` that the names and the choice of the scalars depend on.
`level` is the depth plus one; `keys` and `arrayDepth` have `maxDepth` entries. -/
structure RestJsonPayload where
  level : Nat
  keys : Nat → Option Bytes
  arrayDepth : Nat → Nat
  lastSpecialKey : Option SpecialKey

def RestJsonPayload.start : RestJsonPayload := ⟨0, fun _ => none, fun _ => 0, none⟩

def maxDepth : Nat := 32

structure TrapEnv extends MetricEnv where
  delimiter : UInt8
  expanded : Bytes → Option Bytes

structure Recording where
  key : Bytes
  leaf : Scalar
  stats : Option Metric
  immediate : Option Metric

namespace TrapEnv

variable (env : TrapEnv)

def childKey (up : Option Bytes) (part : Bytes) : Bytes :=
  match up with
  | none => cString (part.take maxMetricTaggedName)
  | some up => cString (up ++ env.delimiter :: part.take (maxMetricTaggedName - up.length - 1))

/-- `track_filtered`, as far as it concerns the name. -/
def trackFiltered (key : Bytes) : Bytes := (env.expanded key).getD key

def metricLocalTrackOrLog (m : Metric) : Option Metric :=
  if m.metricType = .guess then none
  else some { m with metricValue := m.metricValue.map fun v =>
    match m.metricType with
    | .string => cString v
    | .int32 | .uint32 => v.take 4
    | _ => v.take 8 }

def metricLocalAccrue (name : Bytes) (t : MetricType) (v : Option Bytes) : Option Metric :=
  (metricCoerce env.toMetricEnv name t v).bind metricLocalTrackOrLog

def record (key : Bytes) (leaf : Scalar) (t : MetricType) (v : Option Bytes) : Recording where
  key := key
  leaf := leaf
  stats := statsSetMetric env.toMetricEnv (env.trackFiltered key) t v
  immediate := env.metricLocalAccrue (env.trackFiltered key) t v

def recordNull (key : Bytes) : Recording := env.record key .null .int32 none

def recordBoolean (key : Bytes) (value : Bool) : Recording :=
  env.record key (.boolean value) .int32 (some (littleEndian 4 (if value then 1 else 0)))

def recordNumber (key : Bytes) (value : Bytes) : Recording :=
  env.record key (.number value) .guess (some (value.take 127 ++ [0]))

def recordString (key : Bytes) (value : Bytes) : Recording :=
  env.record key (.string value) .guess (some (value.take 4095 ++ [0]))

def recordLeaf (key : Bytes) : Scalar → Recording
  | .null => env.recordNull key
  | .boolean value => env.recordBoolean key value
  | .number value => env.recordNumber key value
  | .string value => env.recordString key value

end TrapEnv

namespace RestJsonPayload

variable (env : TrapEnv) (json : RestJsonPayload)

def parentKey : Option (Option Bytes) :=
  if json.level ≤ 1 then some none else (json.keys (json.level - 2)).map some

def setKey (key : Option Bytes) : RestJsonPayload :=
  { json with keys := Function.update json.keys (json.level - 1) key }

/-- `set_array_key`; a container without a name is a null pointer. -/
def setArrayKey : Option RestJsonPayload :=
  if 0 < json.level ∧ 0 < json.arrayDepth (json.level - 1) then
    json.parentKey.map fun up =>
      { json.setKey (some (env.childKey up (decimal (json.arrayDepth (json.level - 1) - 1)))) with
        arrayDepth := Function.update json.arrayDepth (json.level - 1)
          (json.arrayDepth (json.level - 1) + 1) }
  else some json

def keep (leaf : Scalar) : RestJsonPayload × Option Recording :=
  match json.keys (json.level - 1) with
  | none => (json, none)
  | some key => (json.setKey (some (env.trackFiltered key)), some (env.recordLeaf key leaf))

def cbNull : Option (RestJsonPayload × Option Recording) :=
  if json.level = 0 then none
  else (json.setArrayKey env).bind fun json =>
    if json.lastSpecialKey ≠ none then none else some (json.keep env .null)

def cbBoolean (value : Bool) : Option (RestJsonPayload × Option Recording) :=
  if json.level = 0 then none
  else (json.setArrayKey env).bind fun json =>
    if json.lastSpecialKey ≠ none then none else some (json.keep env (.boolean value))

def cbNumber (value : Bytes) : Option (RestJsonPayload × Option Recording) :=
  if json.level = 0 then none
  else (json.setArrayKey env).bind fun json =>
    match json.lastSpecialKey with
    | some .ts => some (json, none)
    | some .flags => some (json, none)
    | some .tags => none
    | none => some (json.keep env (.number value))

def cbString (value : Bytes) : Option (RestJsonPayload × Option Recording) :=
  if json.level = 0 then none
  else if json.lastSpecialKey = some .tags then some (json, none)
  else (json.setArrayKey env).bind fun json =>
    match json.lastSpecialKey with
    | none => some (json.keep env (.string value))
    | some _ => some (json, none)

def cbStartMap : Option RestJsonPayload :=
  (json.setArrayKey env).bind fun json =>
    if maxDepth ≤ json.level then none else some { json with level := json.level + 1 }

def cbEndMap : RestJsonPayload := { json with level := json.level - 1 }

def cbStartArray : Option RestJsonPayload :=
  (json.setArrayKey env).bind fun json =>
    -- The source does not look: it counts past the end of `array_depth`.
    if maxDepth ≤ json.level then none
    else some { json with
      level := json.level + 1
      arrayDepth := Function.update json.arrayDepth json.level (json.arrayDepth json.level + 1) }

def cbEndArray : RestJsonPayload :=
  { json with
    arrayDepth := Function.update json.arrayDepth (json.level - 1) 0
    level := json.level - 1 }

/-- `_type`, `_value`, `_ts`, `_fl` and `_tags`. -/
def typeKeys : List Bytes := [[95, 116, 121, 112, 101], [95, 118, 97, 108, 117, 101]]

def specialKey (key : Bytes) : Option SpecialKey :=
  if key = [95, 116, 115] then some .ts
  else if key = [95, 102, 108] then some .flags
  else if key = [95, 116, 97, 103, 115] then some .tags
  else none

def cbMapKey (key : Bytes) : Option RestJsonPayload :=
  let key := key.take maxMetricTaggedName
  if key ∈ typeKeys then none
  else match specialKey key with
    | some special => some { json.setKey none with lastSpecialKey := some special }
    | none => json.parentKey.map fun up =>
      { json.setKey (some (env.childKey up key)) with lastSpecialKey := none }

def step (json : RestJsonPayload) : JsonEvent → Option (RestJsonPayload × Option Recording)
  | .leaf .null => json.cbNull env
  | .leaf (.boolean value) => json.cbBoolean env value
  | .leaf (.number value) => json.cbNumber env value
  | .leaf (.string value) => json.cbString env value
  | .startMap => (json.cbStartMap env).map (·, none)
  | .mapKey key => (json.cbMapKey env key).map (·, none)
  | .endMap => some (json.cbEndMap, none)
  | .startArray => (json.cbStartArray env).map (·, none)
  | .endArray => some (json.cbEndArray, none)

def parse (json : RestJsonPayload) : List JsonEvent → Option RestJsonPayload × List Recording
  | [] => (some json, [])
  | e :: es =>
    match json.step env e with
    | none => (none, [])
    | some (json, recorded) => ((parse json es).1, recorded.toList ++ (parse json es).2)

end RestJsonPayload

mutual

def Json.events : Json → List JsonEvent
  | .leaf value => [.leaf value]
  | .array items => .startArray :: (Json.itemEvents items ++ [.endArray])
  | .object members => .startMap :: (Json.memberEvents members ++ [.endMap])

def Json.itemEvents : List Json → List JsonEvent
  | [] => []
  | j :: items => j.events ++ Json.itemEvents items

def Json.memberEvents : List (Bytes × Json) → List JsonEvent
  | [] => []
  | (key, j) :: members => .mapKey key :: (j.events ++ Json.memberEvents members)

end

end Reconnoiter
