import Reconnoiter.Decimal
import Reconnoiter.Uuid

/-! Metrics logged as flatbuffer records and turned back into metric lines.  Both
writers put a batch of metrics in a flatbuffer, compress it and frame the base64
text of it; the reader undoes the framing and prints a line for each sample. -/

namespace Reconnoiter

structure TimeVal where
  sec : Nat
  usec : Nat
deriving DecidableEq, Encodable

def TimeVal.zero : TimeVal := ⟨0, 0⟩

def TimeVal.ms (t : TimeVal) : Nat := (t.sec * 1000 + t.usec / 1000) % 2 ^ 64

def TimeVal.before (a b : TimeVal) : Bool := a.sec < b.sec || (a.sec = b.sec && a.usec < b.usec)

inductive MetricData (D : Type) where
  | int32 (v : Option Int)
  | uint32 (v : Option Nat)
  | int64 (v : Option Int)
  | uint64 (v : Option Nat)
  | double (v : Option D)
  | string (v : Option Bytes)
  | histogram
  | histogramCumulative
  | absent
  | guess

structure LogMetric (D : Type) where
  metricName : Bytes
  expandedMetricName : Option Bytes
  whence : TimeVal
  logged : Bool
  value : MetricData D

def LogMetric.fullName {D : Type} (m : LogMetric D) : Bytes := m.expandedMetricName.getD m.metricName

instance byteEncodable : Encodable UInt8 :=
  Encodable.ofLeftInverse UInt8.toNat UInt8.ofNat (fun _ => UInt8.ofNat_toNat)

inductive FbValue (D : Type) where
  | int (v : Int)
  | uint (v : Nat)
  | long (v : Int)
  | ulong (v : Nat)
  | double (v : D)
  | string (v : Bytes)
  | absentNumeric
  | absentString
  | histogram
deriving Encodable

structure FbSample (D : Type) where
  timestamp : Nat
  generation : Nat
  value : Option (FbValue D)
deriving Encodable

structure FbMetric (D : Type) where
  name : Bytes
  samples : List (FbSample D)
deriving Encodable

structure MetricBatch (D : Type) where
  timestamp : Nat
  checkName : Bytes
  checkUuid : Bytes
  accountId : Int
  metrics : List (FbMetric D)
deriving Encodable

structure BfEnv (D : Type) where
  uuidText : UuidText
  showDouble : D → Bytes
  finalize : MetricBatch D → Bytes
  readBatch : Bytes → Option (MetricBatch D)
  compressB64 : Bytes → Bytes
  decompressB64 : Nat → Bytes → Option Bytes
  readBatch_finalize : ∀ b, readBatch (finalize b) = some b
  decompress_compress : ∀ buf, decompressB64 (buf.length % 2 ^ 32) (compressB64 buf) = some buf
  compress_plain : ∀ buf, ∀ c ∈ compressB64 buf, c ≠ 9 ∧ c ≠ 10

structure LogCheck where
  checkid : Uuid
  target : Bytes
  module : Bytes
  name : Bytes

structure BfLog (D : Type) where
  check : LogCheck
  extendedId : Bool
  metricsPerBundle : Option Int
  accountIdFromName : Bytes → Int
  applyFilterset : LogMetric D → Option (LogMetric D)

section Encoder

variable {D : Type}

def encodeValue : MetricData D → Option (FbValue D)
  | .int32 v => some (v.elim .absentNumeric .int)
  | .uint32 v => some (v.elim .absentNumeric .uint)
  | .int64 v => some (v.elim .absentNumeric .long)
  | .uint64 v => some (v.elim .absentNumeric .ulong)
  | .double v => some (v.elim .absentNumeric .double)
  | .string v => some (v.elim .absentString .string)
  | .histogram | .histogramCumulative | .absent | .guess => none

def flatbufferEncodeMetric (m : LogMetric D) (generation : Nat) : FbMetric D :=
  let timestamp := if m.whence.sec ≠ 0 ∨ m.whence.usec ≠ 0 then m.whence.ms else 0
  ⟨m.fullName, [⟨timestamp, generation, encodeValue m.value⟩]⟩

def strlcat (dst src : Bytes) (size : Nat) : Bytes :=
  if dst.length < size then dst ++ src.take (size - 1 - dst.length) else dst

def BfLog.checkName (log : BfLog D) : Bytes :=
  if log.extendedId then
    strlcat (strlcat (strlcat (strlcat (strlcat [] log.check.target 768) [96] 768)
      log.check.module 768) [96] 768) log.check.name 768
  else []

def BfLog.batch (log : BfLog D) (whence : TimeVal) (metrics : List (LogMetric D)) : MetricBatch D where
  timestamp := whence.ms
  checkName := log.checkName
  checkUuid := log.check.checkid.toList
  accountId := log.accountIdFromName log.checkName
  metrics := metrics.map (flatbufferEncodeMetric · 0)

def BfLog.passes (log : BfLog D) (m : LogMetric D) : Option (LogMetric D) :=
  match log.applyFilterset m with
  | none => none
  | some m => if m.logged then none else some m

def bfTag : Bytes := [66, 70, 9]

def sizeField (buffer : Bytes) : Bytes := decimalInt ((buffer.length : Int).bmod (2 ^ 32))

def bundleMetricFlatbufferSerializeLog (env : BfEnv D) (log : BfLog D) (whence : TimeVal)
    (m : LogMetric D) : Option Bytes :=
  match log.passes m with
  | none => none
  | some m =>
    let buffer := env.finalize (log.batch whence [m])
    some (bfTag ++ (sizeField buffer ++ 9 :: (env.compressB64 buffer ++ [10])))

structure BundleState (D : Type) where
  latestMetricWhence : TimeVal
  current : List (LogMetric D)
  records : List Bytes

def timeField (t : TimeVal) : Bytes := decimal t.sec ++ 46 :: decimalPad (t.usec / 1000)

def batchRecord (env : BfEnv D) (time : TimeVal) (b : MetricBatch D) : Bytes :=
  let buffer := env.finalize b
  bfTag ++ (timeField time ++ 9 :: (sizeField buffer ++ 9 :: (env.compressB64 buffer ++ [10])))

def BundleState.timeToUse (st : BundleState D) (whence : TimeVal) : TimeVal :=
  let latest := st.latestMetricWhence
  if whence.sec = 0 ∨ (latest.sec ≠ 0 ∧ latest.before whence = true) then latest else whence

def BundleState.doBatch (env : BfEnv D) (log : BfLog D) (whence : TimeVal) (st : BundleState D) :
    BundleState D :=
  ⟨.zero, [], st.records ++ [batchRecord env (st.timeToUse whence) (log.batch whence st.current)]⟩

def BfLog.perBundle (log : BfLog D) : Nat :=
  match log.metricsPerBundle with
  | none => 500
  | some n => if n ≤ 0 then 500 else n.toNat

def bundleStep (env : BfEnv D) (log : BfLog D) (whence : TimeVal) (st : BundleState D)
    (entry : Option (LogMetric D)) : BundleState D :=
  match entry.bind log.passes with
  | none => st
  | some m =>
    let latest := if m.whence.sec = 0 then whence
      else if st.latestMetricWhence.before m.whence then m.whence else st.latestMetricWhence
    let st : BundleState D := ⟨latest, st.current ++ [m], st.records⟩
    if log.perBundle ≤ st.current.length then st.doBatch env log whence else st

def bundleFbSerialize (env : BfEnv D) (log : BfLog D) (whence : TimeVal)
    (metrics : List (Option (LogMetric D))) : List Bytes :=
  let st := metrics.foldl (bundleStep env log whence) ⟨.zero, [], []⟩
  if st.current = [] then st.records else (st.doBatch env log whence).records

end Encoder

inductive BfField where
  | whenceStr
  | ulenStr
deriving DecidableEq

inductive BfError where
  | notBundle
  | shortLine (field : BfField)
  | noTabAfter (field : BfField)
  | failedToDecompress
  | corrupt
  | overrun
deriving DecidableEq

section Decoder

variable {D : Type}

/-- `SET_FIELD_FROM_BUNDLE` -/
def bundleField {ε : Type} (short noTab : ε) (s : Bytes) : Except ε (Bytes × Bytes) :=
  if s.head?.getD 0 = 0 then .error short
  else if 9 ∈ s then .ok (upTo 9 s, after 9 s)
  else .error noTab

def setField (field : BfField) (s : Bytes) : Except BfError (Bytes × Bytes) :=
  bundleField (.shortLine field) (.noTabAfter field) s

def nullText : Bytes := [91, 91, 110, 117, 108, 108, 93, 93]

def sampleText (env : BfEnv D) : Option (FbValue D) → Option (UInt8 × Bytes)
  | some (.int v) => some (105, decimalInt v)
  | some (.uint v) => some (73, decimal v)
  | some (.long v) => some (108, decimalInt v)
  | some (.ulong v) => some (76, decimal v)
  | some (.double v) => some (110, env.showDouble v)
  | some .absentNumeric => some (110, nullText)
  | some (.string v) => some (115, v)
  | some .absentString => some (115, nullText)
  | some .histogram | none => none

def timestampText (ms : Nat) : Bytes := decimal (ms / 1000) ++ 46 :: decimalPad (ms % 1000)

def extendedCheckId (env : BfEnv D) (checkName : Bytes) (u : Uuid) : Bytes :=
  checkName ++ ((if checkName = [] ∨ checkName.getLast? = some 96 then [] else [96]) ++
    env.uuidText.unparseLower u)

def lineText (ms : Nat) (checkId name : Bytes) (type : UInt8) (value : Bytes) : Bytes :=
  77 :: 9 :: (timestampText ms ++ 9 :: (checkId ++ 9 :: (name ++ 9 :: type :: 9 :: value)))

def MetricBatch.uuid (b : MetricBatch D) : Uuid :=
  if h : b.checkUuid.length = 16 then ⟨b.checkUuid, h⟩ else Uuid.zero

/-- The texts are printed with `%s`, which stops at a NUL. -/
def sampleLine (env : BfEnv D) (b : MetricBatch D) (name : Bytes) (s : FbSample D) : Option Bytes :=
  match sampleText env s.value with
  | none => none
  | some (type, value) =>
    some (lineText (if s.timestamp = 0 then b.timestamp else s.timestamp)
      (upTo 0 (extendedCheckId env b.checkName b.uuid)) (upTo 0 name) type (upTo 0 value))

def fillSlot (env : BfEnv D) (b : MetricBatch D) (i : Nat) (name : Bytes) :
    List (FbSample D) → List (Option Bytes) → Except BfError (List (Option Bytes))
  | [], out => .ok out
  | s :: samples, out =>
    match sampleLine env b name s with
    | none => fillSlot env b i name samples out
    | some line =>
      if i < out.length then fillSlot env b i name samples (out.set i (some line)) else .error .overrun

def fillLines (env : BfEnv D) (b : MetricBatch D) :
    Nat → List (FbMetric D) → List (Option Bytes) → Except BfError (List (Option Bytes))
  | _, [], out => .ok out
  | i, m :: metrics, out =>
    match fillSlot env b i m.name m.samples out with
    | .error e => .error e
    | .ok out => fillLines env b (i + 1) metrics out

def MetricBatch.totalLines (b : MetricBatch D) : Nat := (b.metrics.map (·.samples.length)).sum

def batchToSm (env : BfEnv D) (b : MetricBatch D) : Except BfError (List (Option Bytes)) :=
  fillLines env b 0 b.metrics (List.replicate b.totalLines none)

def bfToSm (env : BfEnv D) (line : Bytes) : Except BfError (List (Option Bytes)) :=
  if line.take 3 ≠ bfTag then .error .notBundle
  else
    match setField .whenceStr (line.drop 3) with
    | .error e => .error e
    | .ok (_, rest) =>
      match setField .ulenStr rest with
      | .error e => .error e
      | .ok (ulen, rest) =>
        match env.decompressB64 (strtoul ulen % 2 ^ 32) rest with
        | none => .error .failedToDecompress
        | some raw =>
          match env.readBatch raw with
          | none => .error .corrupt
          | some b => batchToSm env b

end Decoder

section Spec

variable {D : Type}

def MetricData.typeChar : MetricData D → UInt8
  | .int32 _ => 105
  | .uint32 _ => 73
  | .int64 _ => 108
  | .uint64 _ => 76
  | .double _ => 110
  | .string _ => 115
  | .histogram => 104
  | .histogramCumulative => 72
  | .absent => 0
  | .guess => 48

def MetricData.text (env : BfEnv D) : MetricData D → Bytes
  | .int32 v | .int64 v => v.elim nullText decimalInt
  | .uint32 v | .uint64 v => v.elim nullText decimal
  | .double v => v.elim nullText env.showDouble
  | .string v => v.getD nullText
  | .histogram | .histogramCumulative | .absent | .guess => []

def MetricData.Plain : MetricData D → Prop
  | .int32 _ | .uint32 _ | .int64 _ | .uint64 _ | .string _ => True
  | .double v => v = none
  | .histogram | .histogramCumulative | .absent | .guess => False

def MetricData.NullInteger : MetricData D → Prop
  | .int32 v | .int64 v => v = none
  | .uint32 v | .uint64 v => v = none
  | _ => False

/-- A time column: seconds, a point and three digits of milliseconds. -/
def TimeShown (text : Bytes) (ms : Nat) : Prop :=
  ∃ sec frac, text = sec ++ 46 :: frac ∧ sec ≠ [] ∧ (∀ c ∈ sec, isDigit c = true) ∧ frac.length = 3 ∧
    (∀ c ∈ frac, isDigit c = true) ∧ readDigits sec * 1000 + readDigits frac = ms

/-- A line of a metric with these columns. -/
def MetricLine (ms : Nat) (id name : Bytes) (type : UInt8) (value line : Bytes) : Prop :=
  ∃ time, TimeShown time ms ∧ line = 77 :: 9 :: (time ++ 9 :: (id ++ 9 :: (name ++ 9 :: type :: 9 :: value)))

/-- The id of a check in the log: its uuid, after target, module and name if the log has extended ids. -/
def BfLog.checkId (text : UuidText) (log : BfLog D) : Bytes :=
  if log.extendedId then
    log.check.target ++ 96 :: (log.check.module ++
      96 :: (log.check.name ++ 96 :: text.unparseLower log.check.checkid))
  else text.unparseLower log.check.checkid

def TimeVal.millis (t : TimeVal) : Nat := t.sec * 1000 + t.usec / 1000

/-- The line of a logged metric: the time is its own, or the record's if that is zero. -/
def LogMetric.IsLine (env : BfEnv D) (log : BfLog D) (whence : TimeVal)
    (m : LogMetric D) (line : Bytes) : Prop :=
  MetricLine ((if m.whence.millis % 2 ^ 64 = 0 then whence else m.whence).millis % 2 ^ 64)
    (log.checkId env.uuidText)
    m.fullName m.value.typeChar (m.value.text env) line

/-- The extended id fits the buffer it is made in, and its last part does not end like a separator. -/
def BfLog.IdKept (text : UuidText) (log : BfLog D) : Prop :=
  0 ∉ log.checkId text ∧ (log.extendedId = true →
    log.check.target.length + log.check.module.length + log.check.name.length + 2 < 768 ∧
      log.check.name ≠ [] ∧ log.check.name.getLast? ≠ some 96)

def LogMetric.TextKept (env : BfEnv D) (m : LogMetric D) : Prop :=
  ¬ m.value.NullInteger ∧ 0 ∉ m.fullName ∧ 0 ∉ m.value.text env

def ReadsBack (env : BfEnv D) (log : BfLog D) (whence : TimeVal) (records : List Bytes)
    (metrics : List (LogMetric D)) : Prop :=
  ∃ lines : List (List (Option Bytes)),
    List.Forall₂ (fun r l => bfToSm env (upTo 10 r) = .ok l) records lines ∧
    List.Forall₂ (fun line m => m.value.Plain → ∃ text, line = some text ∧ m.IsLine env log whence text)
      lines.flatten metrics

inductive BfSource (D : Type) where
  | single (m : LogMetric D)
  | bundle (metrics : List (Option (LogMetric D)))

def BfSource.records (env : BfEnv D) (log : BfLog D) (whence : TimeVal) : BfSource D → List Bytes
  | .single m => (bundleMetricFlatbufferSerializeLog env log whence m).toList
  | .bundle metrics => bundleFbSerialize env log whence metrics

def BfSource.metrics (log : BfLog D) : BfSource D → List (LogMetric D)
  | .single m => (log.passes m).toList
  | .bundle metrics => metrics.filterMap (·.bind log.passes)

variable (env : BfEnv D) (log : BfLog D) (whence : TimeVal)

theorem bundleField_append {ε : Type} {short noTab : ε} {s : Bytes} (h0 : 0 ∉ s) (h9 : 9 ∉ s) (rest : Bytes) :
    bundleField short noTab (s ++ 9 :: rest) = .ok (s, rest) := by
  have hhead : ((s ++ 9 :: rest).head?).getD 0 ≠ 0 := by
    cases s with
    | nil => exact fun hc => by cases hc
    | cons c s => exact fun hc => h0 (hc ▸ List.mem_cons_self)
  have hmem : (9 : UInt8) ∈ s ++ 9 :: rest := List.mem_append_right _ List.mem_cons_self
  rw [bundleField, if_neg hhead, if_pos hmem, upTo_append_cons h9, after_append_cons h9]

theorem setField_no_tab {field : BfField} {s : Bytes} (h9 : 9 ∉ s) :
    ∃ e, setField field s = .error e := by
  by_cases h : s.head?.getD 0 = 0
  · exact ⟨_, if_pos h⟩
  · exact ⟨_, by rw [setField, bundleField, if_neg h, if_neg h9]⟩

theorem not_mem_sizeField {buffer : Bytes} {c : UInt8} (hc : isDigit c = false) (hsign : c ≠ 45) :
    c ∉ sizeField buffer :=
  not_mem_decimalInt hc hsign

theorem not_mem_timeField {t : TimeVal} {c : UInt8} (hc : isDigit c = false) (hdot : c ≠ 46) :
    c ∉ timeField t := by
  intro h
  rcases List.mem_append.mp h with h | h
  · exact not_mem_decimal hc h
  · rcases List.mem_cons.mp h with h | h
    · exact hdot h
    · exact not_mem_decimalPad hc h

theorem timeShown_decimal (sec : Nat) {frac : Nat} (h : frac < 1000) :
    TimeShown (decimal sec ++ 46 :: decimalPad frac) (sec * 1000 + frac) :=
  ⟨_, _, rfl, decimal_ne_nil sec, fun _ => isDigit_of_mem_decimal, length_decimalPad h,
    fun _ => isDigit_of_mem_decimalPad, by rw [readDigits_decimal, readDigits_decimalPad]⟩

theorem TimeShown.no_tab {text : Bytes} {ms : Nat} (h : TimeShown text ms) : 9 ∉ text := by
  obtain ⟨sec, frac, rfl, -, hsec, -, hfrac, -⟩ := h
  exact tab_not_mem_time hsec hfrac

theorem metricLine_lineText (ms : Nat) (id name : Bytes) (type : UInt8) (value : Bytes) :
    MetricLine ms id name type value (lineText ms id name type value) := by
  have hshown := timeShown_decimal (ms / 1000) (Nat.mod_lt ms (by decide : 0 < 1000))
  rw [Nat.div_add_mod'] at hshown
  exact ⟨_, hshown, rfl⟩

/-- The columns of a line are those asked for when none of them is longer. -/
theorem columns_of_metricLine {ms ms' : Nat} {id id' name name' value value' : Bytes} {type type' : UInt8}
    (h : MetricLine ms id name type value (lineText ms' id' name' type' value'))
    (hid : id'.length ≤ id.length)
    (hname : name'.length ≤ name.length) (hvalue : value'.length ≤ value.length) :
    id' = id ∧ name' = name ∧ type' = type ∧ value' = value := by
  obtain ⟨time, hshown, hline⟩ := h
  obtain ⟨time', hshown', hline'⟩ := metricLine_lineText ms' id' name' type' value'
  rw [hline', List.cons.injEq, List.cons.injEq] at hline
  have hrest := congrArg (after 9) hline.2.2
  rw [after_append_cons hshown'.no_tab, after_append_cons hshown.no_tab] at hrest
  have hlength := congrArg List.length hrest
  simp only [List.length_append, List.length_cons] at hlength
  obtain ⟨hid, hname⟩ := List.append_inj hrest (by omega)
  obtain ⟨hname, hvalue⟩ := List.append_inj (List.cons.inj hname).2 (by omega)
  simp only [List.cons.injEq, true_and] at hvalue
  exact ⟨hid, hname, hvalue.1, hvalue.2⟩

theorem not_mem_compressB64 (buf : Bytes) : 9 ∉ env.compressB64 buf ∧ 10 ∉ env.compressB64 buf :=
  ⟨fun h => (env.compress_plain buf 9 h).1 rfl, fun h => (env.compress_plain buf 10 h).2 rfl⟩

theorem upTo_record {fields : Bytes} (h : 10 ∉ fields) (buf : Bytes) :
    upTo 10 (bfTag ++ (fields ++ 9 :: (env.compressB64 buf ++ [10]))) =
      bfTag ++ (fields ++ 9 :: env.compressB64 buf) := by
  have hline : 10 ∉ bfTag ++ (fields ++ 9 :: env.compressB64 buf) := by
    simp [bfTag, h, (not_mem_compressB64 env buf).2]
  have hsplit : bfTag ++ (fields ++ 9 :: (env.compressB64 buf ++ [10])) =
      (bfTag ++ (fields ++ 9 :: env.compressB64 buf)) ++ 10 :: [] := by simp
  rw [hsplit, upTo_append_cons hline]

theorem bfToSm_fields {time size payload : Bytes} {rest : Bytes}
    (htime : setField .whenceStr rest = .ok (time, size ++ 9 :: payload)) (h0 : 0 ∉ size)
    (h9 : 9 ∉ size) {raw : Bytes} (hraw : env.decompressB64 (strtoul size % 2 ^ 32) payload = some raw)
    {b : MetricBatch D} (hb : env.readBatch raw = some b) :
    bfToSm env (bfTag ++ rest) = batchToSm env b := by
  have htake : (bfTag ++ rest).take 3 = bfTag := rfl
  have hdrop : (bfTag ++ rest).drop 3 = rest := rfl
  rw [bfToSm, htake, hdrop, if_neg (not_not.mpr rfl), htime]
  simp only [setField, bundleField_append h0 h9, hraw, hb]

theorem bfToSm_batchRecord (time : TimeVal) (b : MetricBatch D) :
    bfToSm env (upTo 10 (batchRecord env time b)) = batchToSm env b := by
  have hbatch := env.readBatch_finalize b
  rw [batchRecord]
  generalize env.finalize b = buf at hbatch
  have hraw : env.decompressB64 (strtoul (sizeField buf) % 2 ^ 32) (env.compressB64 buf) = some buf := by
    rw [sizeField, strtoul_decimalInt_bmod]
    exact env.decompress_compress buf
  have hfields : 10 ∉ timeField time ++ 9 :: sizeField buf := by
    simp [@not_mem_timeField time 10 rfl (by decide), @not_mem_sizeField buf 10 rfl (by decide)]
  have hline := upTo_record env hfields buf
  rw [List.append_assoc, List.append_assoc, List.cons_append, List.cons_append] at hline
  rw [hline]
  refine bfToSm_fields env (bundleField_append ?_ ?_ _) ?_ ?_ hraw hbatch
  · exact not_mem_timeField rfl (by decide)
  · exact not_mem_timeField rfl (by decide)
  · exact not_mem_sizeField rfl (by decide)
  · exact not_mem_sizeField rfl (by decide)

theorem bfToSm_single {m : LogMetric D} {r : Bytes}
    (h : bundleMetricFlatbufferSerializeLog env log whence m = some r) :
    ∃ e, bfToSm env (upTo 10 r) = .error e := by
  unfold bundleMetricFlatbufferSerializeLog at h
  split at h
  · exact absurd h (Option.some_ne_none r).symm
  · next m' _ =>
    obtain rfl := Option.some.inj h
    generalize env.finalize (log.batch whence [m']) = buf
    have hsize : 10 ∉ sizeField buf := not_mem_sizeField rfl (by decide)
    have hfirst : setField .whenceStr (sizeField buf ++ 9 :: env.compressB64 buf) =
        .ok (sizeField buf, env.compressB64 buf) :=
      bundleField_append (not_mem_sizeField rfl (by decide)) (not_mem_sizeField rfl (by decide)) _
    obtain ⟨e, he⟩ := @setField_no_tab .ulenStr _ (not_mem_compressB64 env buf).1
    refine ⟨e, ?_⟩
    have htake : ∀ rest : Bytes, (bfTag ++ rest).take 3 = bfTag := fun _ => rfl
    have hdrop : ∀ rest : Bytes, (bfTag ++ rest).drop 3 = rest := fun _ => rfl
    rw [upTo_record env hsize, bfToSm, htake, hdrop, if_neg (not_not.mpr rfl), hfirst]
    simp only [he]

def readLine (m : LogMetric D) : Option Bytes :=
  (sampleText env (encodeValue m.value)).map fun tv =>
    lineText (if m.whence.ms = 0 then whence.ms else m.whence.ms)
      (upTo 0 (extendedCheckId env log.checkName log.check.checkid)) (upTo 0 m.fullName) tv.1 (upTo 0 tv.2)

theorem sampleTimestamp_eq (t : TimeVal) : (if t.sec ≠ 0 ∨ t.usec ≠ 0 then t.ms else 0) = t.ms := by
  split_ifs with h
  · rfl
  · obtain ⟨hs, hu⟩ := not_or.mp h
    rw [TimeVal.ms, not_not.mp hs, not_not.mp hu]
    rfl

theorem batch_uuid (metrics : List (LogMetric D)) : (log.batch whence metrics).uuid = log.check.checkid := by
  have hlen : (log.batch whence metrics).checkUuid.length = 16 := log.check.checkid.toList_length
  exact dif_pos hlen

theorem sampleLine_encode (metrics : List (LogMetric D)) (m : LogMetric D) :
    sampleLine env (log.batch whence metrics) m.fullName ⟨m.whence.ms, 0, encodeValue m.value⟩ =
      readLine env log whence m := by
  rw [sampleLine, readLine, batch_uuid]
  cases sampleText env (encodeValue m.value) <;> rfl

theorem fillSlot_encode (metrics : List (LogMetric D)) (m : LogMetric D)
    (done : List (Option Bytes)) (n : Nat) :
    fillSlot env (log.batch whence metrics) done.length (flatbufferEncodeMetric m 0).name
      (flatbufferEncodeMetric m 0).samples (done ++ List.replicate (n + 1) none) =
        .ok (done ++ readLine env log whence m :: List.replicate n none) := by
  simp only [flatbufferEncodeMetric, sampleTimestamp_eq, fillSlot, sampleLine_encode]
  cases readLine env log whence m with
  | none => rfl
  | some line =>
    have hlt : done.length < (done ++ List.replicate (n + 1) (none : Option Bytes)).length := by simp
    simp only [if_pos hlt]
    rw [List.set_append_right _ _ le_rfl, Nat.sub_self, List.replicate_succ, List.set_cons_zero]

theorem fillLines_encode (all metrics : List (LogMetric D)) (done : List (Option Bytes)) :
    fillLines env (log.batch whence all) done.length (metrics.map (flatbufferEncodeMetric · 0))
      (done ++ List.replicate metrics.length none) = .ok (done ++ metrics.map (readLine env log whence)) := by
  induction metrics generalizing done with
  | nil => rfl
  | cons m metrics ih =>
    have hih := ih (done ++ [readLine env log whence m])
    rw [List.length_append, List.length_singleton, List.append_assoc, List.append_assoc] at hih
    rw [List.map_cons, fillLines, List.length_cons, fillSlot_encode]
    exact hih

theorem batchToSm_batch (metrics : List (LogMetric D)) :
    batchToSm env (log.batch whence metrics) = .ok (metrics.map (readLine env log whence)) := by
  have htotal : (log.batch whence metrics).totalLines = metrics.length := by
    simp [MetricBatch.totalLines, BfLog.batch, flatbufferEncodeMetric, Function.comp_def]
  rw [batchToSm, htotal]
  exact fillLines_encode env log whence metrics metrics []

def BundleState.Holds (st : BundleState D) (logged : List (LogMetric D)) : Prop :=
  ∃ batches : List (TimeVal × List (LogMetric D)),
    st.records = batches.map (fun b => batchRecord env b.1 (log.batch whence b.2)) ∧
    (batches.map Prod.snd).flatten ++ st.current = logged

theorem holds_doBatch {st : BundleState D} {logged : List (LogMetric D)}
    (h : st.Holds env log whence logged) : (st.doBatch env log whence).Holds env log whence logged := by
  obtain ⟨batches, hrecords, hlogged⟩ := h
  refine ⟨batches ++ [(st.timeToUse whence, st.current)], ?_, ?_⟩
  · rw [List.map_append, ← hrecords]
    rfl
  · rw [← hlogged]
    simp [BundleState.doBatch]

theorem holds_bundleStep {st : BundleState D} {logged : List (LogMetric D)}
    (h : st.Holds env log whence logged) (entry : Option (LogMetric D)) :
    (bundleStep env log whence st entry).Holds env log whence (logged ++ (entry.bind log.passes).toList) := by
  unfold bundleStep
  cases entry.bind log.passes with
  | none =>
    rw [Option.toList_none, List.append_nil]
    exact h
  | some m =>
    obtain ⟨batches, hrecords, hlogged⟩ := h
    have hadd : ∀ latest, (⟨latest, st.current ++ [m], st.records⟩ : BundleState D).Holds env log whence
        (logged ++ [m]) := by
      intro latest
      exact ⟨batches, hrecords, by rw [← hlogged, List.append_assoc]⟩
    simp only [Option.toList_some]
    split_ifs
    all_goals first
      | exact holds_doBatch env log whence (hadd _)
      | exact hadd _

theorem holds_bundleSteps (metrics : List (Option (LogMetric D))) {st : BundleState D}
    {logged : List (LogMetric D)} (h : st.Holds env log whence logged) :
    (metrics.foldl (bundleStep env log whence) st).Holds env log whence
      (logged ++ metrics.filterMap (·.bind log.passes)) := by
  induction metrics generalizing st logged with
  | nil =>
    rw [List.filterMap_nil, List.append_nil]
    exact h
  | cons entry metrics ih =>
    have hstep := ih (holds_bundleStep env log whence h entry)
    rw [List.append_assoc] at hstep
    rw [List.foldl_cons, List.filterMap_cons]
    cases hentry : entry.bind log.passes with
    | none => simpa [hentry] using hstep
    | some m => simpa [hentry] using hstep

theorem bundleFbSerialize_batches (metrics : List (Option (LogMetric D))) :
    ∃ batches : List (TimeVal × List (LogMetric D)),
      bundleFbSerialize env log whence metrics =
        batches.map (fun b => batchRecord env b.1 (log.batch whence b.2)) ∧
      (batches.map Prod.snd).flatten = metrics.filterMap (·.bind log.passes) := by
  have hinit : (⟨.zero, [], []⟩ : BundleState D).Holds env log whence [] := ⟨[], rfl, rfl⟩
  have hrun := holds_bundleSteps env log whence metrics hinit
  rw [List.nil_append] at hrun
  unfold bundleFbSerialize
  by_cases hcur : (metrics.foldl (bundleStep env log whence) ⟨.zero, [], []⟩).current = []
  · obtain ⟨batches, hrecords, hlogged⟩ := hrun
    rw [hcur, List.append_nil] at hlogged
    exact ⟨batches, by rw [if_pos hcur, hrecords], hlogged⟩
  · obtain ⟨batches, hrecords, hlogged⟩ := holds_doBatch env log whence hrun
    rw [show (BundleState.doBatch env log whence _).current = [] from rfl, List.append_nil] at hlogged
    exact ⟨batches, by rw [if_neg hcur, hrecords], hlogged⟩

theorem readsBack_bundle_iff (metrics : List (Option (LogMetric D))) :
    ReadsBack env log whence (bundleFbSerialize env log whence metrics)
      (metrics.filterMap (·.bind log.passes)) ↔
      ∀ m ∈ metrics.filterMap (·.bind log.passes), m.value.Plain →
        ∃ text, readLine env log whence m = some text ∧ m.IsLine env log whence text := by
  obtain ⟨batches, hrecords, hlogged⟩ := bundleFbSerialize_batches env log whence metrics
  have hread : ∀ b : TimeVal × List (LogMetric D),
    bfToSm env (upTo 10 (batchRecord env b.1 (log.batch whence b.2))) =
      .ok (b.2.map (readLine env log whence)) := by
    intro b
    rw [bfToSm_batchRecord, batchToSm_batch]
  have hflat : (batches.map (fun b => b.2.map (readLine env log whence))).flatten =
      (batches.map Prod.snd).flatten.map (readLine env log whence) := by
    rw [List.map_flatten, List.map_map]
    rfl
  have hiff : ∀ lines, List.Forall₂ (fun r l => bfToSm env (upTo 10 r) = .ok l)
      (bundleFbSerialize env log whence metrics) lines ↔
        lines = batches.map (fun b => b.2.map (readLine env log whence)) := by
    intro lines
    rw [hrecords, List.forall₂_map_left_iff]
    simp only [hread, Except.ok.injEq]
    rw [← List.forall₂_map_left_iff, List.forall₂_eq_eq_eq]
    exact eq_comm
  unfold ReadsBack
  simp only [hiff, exists_eq_left, hflat, hlogged, List.forall₂_map_left_iff, List.forall₂_same]

theorem sampleText_plain {v : MetricData D} (h : v.Plain) (hnull : ¬ v.NullInteger) :
    sampleText env (encodeValue v) = some (v.typeChar, v.text env) := by
  cases v with
  | int32 o | uint32 o | int64 o | uint64 o =>
    cases o with
    | none => exact absurd rfl hnull
    | some z => rfl
  | double o =>
    rw [show o = none from h]
    rfl
  | string o => cases o <;> rfl
  | _ => exact h.elim

theorem sampleText_nullInteger {v : MetricData D} (h : v.NullInteger) :
    sampleText env (encodeValue v) = some (110, nullText) ∧ v.typeChar ≠ 110 ∧ v.text env = nullText := by
  cases v with
  | int32 o | uint32 o | int64 o | uint64 o =>
    rw [show o = none from h]
    exact ⟨rfl, by simp [MetricData.typeChar], rfl⟩
  | _ => exact h.elim

theorem strlcat_take (s src : Bytes) {size : Nat} (h : 0 < size) :
    strlcat (s.take (size - 1)) src size = (s ++ src).take (size - 1) := by
  rw [strlcat, if_pos (by rw [List.length_take]; omega), List.take_append]
  congr 2
  rw [List.length_take]
  omega

theorem BfLog.checkName_eq (hext : log.extendedId = true) :
    log.checkName = (log.check.target ++ 96 :: (log.check.module ++ 96 :: log.check.name)).take 767 := by
  have hstep := fun s src => @strlcat_take s src 768 (by decide)
  rw [checkName, if_pos hext, ← List.take_nil (i := 768 - 1), hstep, hstep, hstep, hstep, hstep]
  simp

theorem upTo_cut_eq_iff (whole uuid : Bytes) :
    (upTo 0 (whole.take 767 ++
      ((if whole.take 767 = [] ∨ (whole.take 767).getLast? = some 96 then [] else [96]) ++
        uuid))).length ≤ (whole ++ 96 :: uuid).length ∧
      (upTo 0 (whole.take 767 ++
        ((if whole.take 767 = [] ∨ (whole.take 767).getLast? = some 96 then [] else [96]) ++
          uuid)) = whole ++ 96 :: uuid ↔
        0 ∉ whole ++ 96 :: uuid ∧ whole.length < 768 ∧ ¬ (whole = [] ∨ whole.getLast? = some 96)) := by
  set sep : Bytes := if whole.take 767 = [] ∨ (whole.take 767).getLast? = some 96 then [] else [96] with hsep
  have hle := length_upTo_le 0 (whole.take 767 ++ (sep ++ uuid))
  have hone : sep.length ≤ 1 := by
    rw [hsep]
    split_ifs <;> simp
  have hcut : (whole.take 767).length ≤ whole.length := List.length_take_le' _ _
  have hcut' : (whole.take 767).length ≤ 767 := List.length_take_le _ _
  simp only [List.length_append, List.length_cons] at hle ⊢
  refine ⟨by omega, fun h => ?_, fun ⟨hnul, hfits, hend⟩ => ?_⟩
  · have hlen := congrArg List.length h
    simp only [List.length_append, List.length_cons] at hlen
    have htake : whole.take 767 = whole := List.take_of_length_le (by omega)
    refine ⟨h ▸ not_mem_upTo 0 _, by omega, fun hend => ?_⟩
    rw [htake, if_pos hend] at hsep
    have hnil := congrArg List.length hsep
    rw [List.length_nil] at hnil
    omega
  · have htake : whole.take 767 = whole := List.take_of_length_le (by omega)
    rw [htake, if_neg hend] at hsep
    rw [htake, hsep]
    exact upTo_eq_self hnul

theorem getLast?_append_cons_eq (x name : Bytes) :
    (x ++ 96 :: name).getLast? = some 96 ↔ name = [] ∨ name.getLast? = some 96 := by
  induction name using List.reverseRecOn with
  | nil => simp
  | append_singleton l c =>
    rw [← List.cons_append, ← List.append_assoc, List.getLast?_concat, List.getLast?_concat]
    simp

/-- The id that is read is never longer than the check's, and is the check's exactly when that is kept. -/
theorem readId_eq_iff :
    (upTo 0 (extendedCheckId env log.checkName log.check.checkid)).length ≤
    (log.checkId env.uuidText).length ∧
      (upTo 0 (extendedCheckId env log.checkName log.check.checkid) = log.checkId env.uuidText ↔
        log.IdKept env.uuidText) := by
  cases hext : log.extendedId with
  | false =>
    have hid : extendedCheckId env log.checkName log.check.checkid = log.checkId env.uuidText := by
      simp [extendedCheckId, BfLog.checkName, BfLog.checkId, hext]
    rw [hid, BfLog.IdKept, hext]
    refine ⟨length_upTo_le _ _, fun h => ⟨h ▸ not_mem_upTo 0 _, by simp⟩, fun h => upTo_eq_self h.1⟩
  | true =>
    have hid : log.checkId env.uuidText =
      (log.check.target ++ 96 :: (log.check.module ++ 96 :: log.check.name)) ++
        96 :: env.uuidText.unparseLower log.check.checkid := by
      simp [BfLog.checkId, hext]
    have hcut := upTo_cut_eq_iff (log.check.target ++ 96 :: (log.check.module ++ 96 :: log.check.name))
      (env.uuidText.unparseLower log.check.checkid)
    have hend : (log.check.target ++ 96 :: (log.check.module ++ 96 :: log.check.name)).getLast? = some 96 ↔
        log.check.name = [] ∨ log.check.name.getLast? = some 96 := by
      rw [← List.cons_append, ← List.append_assoc]
      exact getLast?_append_cons_eq _ _
    rw [BfLog.IdKept, hid, extendedCheckId, log.checkName_eq hext, hext]
    refine ⟨hcut.1, hcut.2.trans (and_congr_right fun _ => ?_)⟩
    rw [or_iff_right (by simp), hend, not_or]
    simp only [List.length_append, List.length_cons, forall_const]
    refine and_congr_left fun _ => ?_
    omega

theorem readLine_isLine_iff {m : LogMetric D} (h : m.value.Plain) :
    (∃ text, readLine env log whence m = some text ∧ m.IsLine env log whence text) ↔
      log.IdKept env.uuidText ∧ m.TextKept env := by
  obtain ⟨hle, hid⟩ := readId_eq_iff env log
  have hms : (if m.whence.millis % 2 ^ 64 = 0 then whence else m.whence).millis % 2 ^ 64 =
      if m.whence.ms = 0 then whence.ms else m.whence.ms := by
    unfold TimeVal.ms TimeVal.millis
    split_ifs <;> rfl
  rw [LogMetric.TextKept]
  constructor
  · rintro ⟨text, hread, hline⟩
    by_cases hnull : m.value.NullInteger
    · obtain ⟨htext, htype, hvalue⟩ := sampleText_nullInteger env hnull
      rw [readLine, htext, Option.map_some, Option.some.injEq] at hread
      rw [← hread] at hline
      have hcols := columns_of_metricLine hline hle (length_upTo_le _ _)
        (by rw [hvalue]; exact length_upTo_le _ _)
      exact absurd hcols.2.2.1.symm htype
    · rw [readLine, sampleText_plain env h hnull, Option.map_some, Option.some.injEq] at hread
      rw [← hread] at hline
      obtain ⟨hi, hn, -, hv⟩ := columns_of_metricLine hline hle (length_upTo_le _ _) (length_upTo_le _ _)
      exact ⟨hid.mp hi, hnull, hn ▸ not_mem_upTo 0 _, hv ▸ not_mem_upTo 0 _⟩
  · rintro ⟨hkept, hnull, hname, hvalue⟩
    refine ⟨_, by rw [readLine, sampleText_plain env h hnull, Option.map_some], ?_⟩
    rw [LogMetric.IsLine, hms, hid.mpr hkept, upTo_eq_self hname, upTo_eq_self hvalue]
    exact metricLine_lineText _ _ _ _ _

theorem not_readsBack_single {m m' : LogMetric D} (hm : log.passes m = some m')
    (metrics : List (LogMetric D)) :
    ¬ ReadsBack env log whence (bundleMetricFlatbufferSerializeLog env log whence m).toList metrics := by
  obtain ⟨r, hr⟩ : ∃ r, bundleMetricFlatbufferSerializeLog env log whence m = some r := by
    rw [bundleMetricFlatbufferSerializeLog, hm]
    exact ⟨_, rfl⟩
  obtain ⟨e, he⟩ := bfToSm_single env log whence hr
  rintro ⟨lines, hlines, -⟩
  rw [hr, Option.toList_some] at hlines
  obtain ⟨l, ls, hl, -⟩ := List.forall₂_cons_left_iff.mp hlines
  rw [he] at hl
  exact absurd hl (by simp)

theorem readsBack_bundle_iff_kept (metrics : List (Option (LogMetric D))) :
    ReadsBack env log whence (bundleFbSerialize env log whence metrics)
      (metrics.filterMap (·.bind log.passes)) ↔
      ∀ m ∈ metrics.filterMap (·.bind log.passes), m.value.Plain →
        log.IdKept env.uuidText ∧ m.TextKept env := by
  rw [readsBack_bundle_iff]
  exact forall₂_congr fun m _ => forall_congr' fun hplain => readLine_isLine_iff env log whence hplain

/-- The records of a source are read back as its metrics exactly when there is
nothing to log, or the bundling writer wrote them and for each of the metrics
with a plain value the id and the texts are kept and it is not a null integer. -/
theorem bf_records_readsBack_iff (src : BfSource D) :
    ReadsBack env log whence (src.records env log whence) (src.metrics log) ↔
      src.metrics log = [] ∨ ∃ metrics, src = .bundle metrics ∧
        ∀ m ∈ src.metrics log, m.value.Plain → log.IdKept env.uuidText ∧ m.TextKept env := by
  cases src with
  | single m =>
    cases hm : log.passes m with
    | none =>
      have hrec : bundleMetricFlatbufferSerializeLog env log whence m = none := by
        rw [bundleMetricFlatbufferSerializeLog, hm]
      simp only [BfSource.records, BfSource.metrics, hm, hrec, Option.toList_none, true_or, iff_true]
      exact ⟨[], .nil, .nil⟩
    | some m' =>
      simp only [BfSource.records, BfSource.metrics, hm, Option.toList_some, List.cons_ne_nil,
        reduceCtorEq, false_and, exists_false, or_false, iff_false]
      exact not_readsBack_single env log whence hm [m']
  | bundle metrics =>
    rw [BfSource.records, BfSource.metrics, readsBack_bundle_iff_kept]
    constructor
    · exact fun h => .inr ⟨metrics, rfl, h⟩
    · rintro (h | ⟨_, -, h⟩)
      · rw [h]
        exact fun m hm => absurd hm List.not_mem_nil
      · exact h

end Spec

def hexEnv : BfEnv Int where
  uuidText := standardUuidText
  showDouble z := decimalInt z ++ 46 :: List.replicate 6 48
  finalize b := List.replicate (Encodable.encode b) 0
  readBatch l := Encodable.decode l.length
  compressB64 buf := buf.flatMap hexByte
  decompressB64 _ text := parseHex text
  readBatch_finalize b := by rw [List.length_replicate, Encodable.encodek]
  decompress_compress buf := parseHex_hexByte buf
  compress_plain buf c hc := by
    have hle := le_of_mem_hexBytes hc
    constructor <;> rintro rfl <;> exact absurd hle (by decide)

def openLog : BfLog Int where
  check := ⟨Uuid.zero, [], [], []⟩
  extendedId := false
  metricsPerBundle := none
  accountIdFromName _ := 0
  applyFilterset m := some m

def countMetric (v : Option Int) : LogMetric Int := ⟨[97], none, .zero, false, .int32 v⟩

theorem bf_records_readsBack_fails :
    ¬ ReadsBack hexEnv openLog ⟨1, 0⟩ ((BfSource.single (countMetric (some 5))).records hexEnv openLog ⟨1, 0⟩)
        [countMetric (some 5)] ∧
      ¬ ReadsBack hexEnv openLog ⟨1, 0⟩
        ((BfSource.bundle [some (countMetric none)]).records hexEnv openLog ⟨1, 0⟩)
        [countMetric none] := by
  have hpasses : openLog.passes (countMetric (some 5)) = some (countMetric (some 5)) := rfl
  refine ⟨not_readsBack_single hexEnv openLog ⟨1, 0⟩ hpasses _, ?_⟩
  intro h
  exact ((readsBack_bundle_iff_kept hexEnv openLog ⟨1, 0⟩ [some (countMetric none)]).mp h
    (countMetric none) List.mem_cons_self trivial).2.1 rfl

end Reconnoiter
