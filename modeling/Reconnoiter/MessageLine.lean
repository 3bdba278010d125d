import Reconnoiter.LogFields
import Reconnoiter.MessageDecoder

/-! The line decoder: the message that a log line stands for. -/

namespace Reconnoiter

/-- Whether a line has a column for its source: `has_noit` is 1, 0 or -1. -/
inductive HasNoit where
  | yes
  | no
  | detect
deriving DecidableEq

def HasNoit.toInt : HasNoit → Int
  | .yes => 1
  | .no => 0
  | .detect => -1

structure LineEnv (D : Type) where
  uuidText : UuidText
  base64 : Base64
  qsort : QSort (Tag.compareKey base64)
  strtod : Bytes → D
  /-- The whole number of `1000.0 * atof` of a text that begins with a point. -/
  millis : Bytes → Nat

inductive MessageValue (D : Type) where
  | null
  | int32 (v : Int)
  | uint32 (v : Nat)
  | int64 (v : Int)
  | uint64 (v : Nat)
  | double (v : D)
  | string (v : Option Bytes)
deriving DecidableEq

structure MetricMessage (D : Type) where
  noit : Option Bytes
  whenceMs : Nat
  accountId : Nat
  id : Uuid
  name : Bytes
  valueType : UInt8
  value : MessageValue D
deriving DecidableEq

structure LineHead where
  noit : Option Bytes
  whenceMs : Nat
  accountId : Nat
  id : Uuid
  name : Bytes

section Decoder

variable {D : Type}

def moveToNextTab (code : Int) (s : Bytes) : Except Int Bytes :=
  if 9 ∈ s then .ok (after 9 s) else .error code

def strtoulEnd (s : Bytes) : Bytes :=
  let digits := match s.dropWhile isSpace with
    | 45 :: r => r
    | 43 :: r => r
    | r => r
  if digits.head?.any isDigit then digits.dropWhile isDigit else s

def lineWhence (env : LineEnv D) (time : Bytes) : Nat :=
  let dp := strtoulEnd time
  (strtoul time * 1000 + if dp.head? = some 46 then env.millis dp else 0) % 2 ^ 64

def lineAccountId (checkId : Bytes) : Nat :=
  let part := 96 :: after 96 (after 96 checkId)
  if 96 ∈ checkId ∧ 96 ∈ after 96 checkId ∧ 6 < part.length ∧ part.take 3 = [96, 99, 95] ∧
    95 ∈ part.drop 3 then
    strtoul (part.drop 3)
  else 0

def HasNoit.resolve (mode : HasNoit) (second : Bytes) : Bool :=
  match mode with
  | .yes => true
  | .no => false
  | .detect => !isTimestamp second.dropLast

def parseHead (env : LineEnv D) (mode : HasNoit) (msg : Bytes) : Except Int LineHead := do
  let second ← moveToNextTab (-1) msg
  let hasNoit := mode.resolve second
  let time ← if hasNoit then moveToNextTab (-1) second else pure second
  let checkId ← moveToNextTab (-2) time
  let name ← moveToNextTab (-3) checkId
  let before := msg.take (msg.length - name.length - 1)
  match env.uuidText.parse (before.drop (before.length - 36)) with
  | none => .error (-7)
  | some id =>
    if (upTo 9 checkId).length < 36 then .error (-6)
    else
      .ok ⟨if hasNoit then some (upTo 9 second) else none, lineWhence env time,
        lineAccountId (upTo 9 checkId ++ [9]), id, name⟩

def LineHead.message (head : LineHead) (name : Bytes) (valueType : UInt8) (value : MessageValue D) :
    MetricMessage D :=
  ⟨head.noit, head.whenceMs, head.accountId, head.id, name, valueType, value⟩

def metricValue (env : LineEnv D) (type : UInt8) (value : Bytes) : Except Int (MessageValue D) :=
  let osnum := value.take 511
  if value = nullText ∨ value = nullText ++ [10] then .ok .null
  else if type = 105 then .ok (.int32 ((strtoll osnum).bmod (2 ^ 32)))
  else if type = 73 then .ok (.uint32 (strtoul osnum % 2 ^ 32))
  else if type = 108 then .ok (.int64 (strtoll osnum))
  else if type = 76 then .ok (.uint64 (strtoul osnum))
  else if type = 110 then .ok (.double (env.strtod osnum))
  else if type = 115 then .ok (.string (some (if value.getLast? = some 10 then value.dropLast else value)))
  else .error (-9)

def parseMetric (env : LineEnv D) (head : LineHead) : Except Int (MetricMessage D) := do
  let type ← moveToNextTab (-4) head.name
  let value ← moveToNextTab (-5) type
  if (upTo 9 head.name).length > maxMetricTaggedName then .error (-8)
  else
    match processTags env.qsort (upTo 9 head.name) with
    | none => .error (-9)
    | some name =>
      let v ← metricValue env (type.head?.getD 0) value
      .ok (head.message name (type.head?.getD 0) v)

def trimNewlines (s : Bytes) : Bytes :=
  s.take 1 ++ ((s.drop 1).reverse.dropWhile (· == 10)).reverse

def parseHistogram (env : LineEnv D) (second : Option UInt8) (head : LineHead) :
    Except Int (MetricMessage D) := do
  let value ← moveToNextTab (-4) head.name
  match processTags env.qsort (upTo 9 head.name) with
  | none => .error (-7)
  | some name =>
    let text := trimNewlines (upTo 0 value)
    let type := if second = some 49 then 104 else if second = some 50 then 72 else 115
    .ok (head.message name type (.string (if text = [] then none else some text)))

def parseLine (env : LineEnv D) (mode : HasNoit) (msg : Bytes) : Except Int (MetricMessage D) := do
  let head ← parseHead env mode msg
  match msg.head? with
  | some 77 => parseMetric env head
  | some 72 => parseHistogram env msg.tail.head? head
  -- the length of the name stays zero
  | some 83 | some 67 | some 68 => .ok (head.message [] 48 (.string none))
  | _ => .error 0

end Decoder

section Source

variable {D : Type} {env : LineEnv D} {mode : HasNoit}

theorem bind_eq_ok {ε α β : Type} {x : Except ε α} {f : α → Except ε β} {b : β} :
    (x >>= f) = .ok b ↔ ∃ a, x = .ok a ∧ f a = .ok b := by
  cases x with
  | error e => exact iff_of_false (fun h => by cases h) (by rintro ⟨a, ha, -⟩; cases ha)
  | ok a => exact ⟨fun h => ⟨a, rfl, h⟩, by rintro ⟨a', ha, h⟩; cases ha; exact h⟩

theorem ite_bind {ε α β : Type} {c : Prop} [Decidable c] (x y : Except ε α) (f : α → Except ε β) :
    (if c then x >>= f else y >>= f) = (if c then x else y) >>= f := by
  split_ifs <;> rfl

theorem moveToNextTab_eq_ok {code : Int} {s r : Bytes} (h : moveToNextTab code s = .ok r) :
    9 ∈ s ∧ r = after 9 s := by
  unfold moveToNextTab at h
  split_ifs at h with h9
  cases h
  exact ⟨h9, rfl⟩

theorem parseMetric_noit {head : LineHead} {m : MetricMessage D} (h : parseMetric env head = .ok m) :
    m.noit = head.noit := by
  obtain ⟨type, -, h⟩ := bind_eq_ok.mp h
  obtain ⟨value, -, h⟩ := bind_eq_ok.mp h
  split_ifs at h
  split at h
  · cases h
  · obtain ⟨v, -, h⟩ := bind_eq_ok.mp h
    cases h
    rfl

theorem parseHistogram_noit {second : Option UInt8} {head : LineHead} {m : MetricMessage D}
    (h : parseHistogram env second head = .ok m) : m.noit = head.noit := by
  obtain ⟨value, -, h⟩ := bind_eq_ok.mp h
  split at h
  · cases h
  · cases h
    rfl

theorem parseLine_head {msg : Bytes} {m : MetricMessage D} (h : parseLine env mode msg = .ok m) :
    ∃ head, parseHead env mode msg = .ok head ∧ m.noit = head.noit := by
  obtain ⟨head, hhead, h⟩ := bind_eq_ok.mp h
  refine ⟨head, hhead, ?_⟩
  split at h
  · exact parseMetric_noit h
  · exact parseHistogram_noit h
  all_goals cases h; try rfl

theorem parseLine_noit {msg : Bytes} {m : MetricMessage D} (h : parseLine env mode msg = .ok m) :
    (m.noit = if mode.resolve (after 9 msg) then some (upTo 9 (after 9 msg)) else none) ∧
      (mode.resolve (after 9 msg) = true → 9 ∈ after 9 (after 9 msg)) := by
  obtain ⟨head, hhead, hnoit⟩ := parseLine_head h
  obtain ⟨second, hsecond, hhead⟩ := bind_eq_ok.mp hhead
  obtain ⟨-, rfl⟩ := moveToNextTab_eq_ok hsecond
  dsimp only at hhead
  rw [ite_bind] at hhead
  obtain ⟨time, htime, hhead⟩ := bind_eq_ok.mp hhead
  obtain ⟨checkId, hcheckId, hhead⟩ := bind_eq_ok.mp hhead
  obtain ⟨name, -, hhead⟩ := bind_eq_ok.mp hhead
  split at hhead
  · cases hhead
  by_cases hlen : (upTo 9 checkId).length < 36
  · rw [if_pos hlen] at hhead
    cases hhead
  rw [if_neg hlen] at hhead
  cases hhead
  refine ⟨hnoit, fun hhas => ?_⟩
  rw [if_pos hhas] at htime
  obtain ⟨-, rfl⟩ := moveToNextTab_eq_ok htime
  exact (moveToNextTab_eq_ok hcheckId).1

end Source

end Reconnoiter
