import Reconnoiter.LogFields

/-! Metrics logged as protobuf bundles and turned back into lines. The writer spreads the metrics of a
check over bundles and frames the text of each; the reader prints a line for the status and one for each
metric. -/

namespace Reconnoiter

inductive Availability where
  | unknown
  | available
  | unavailable
deriving DecidableEq

def Availability.char : Availability → UInt8
  | .unknown => 48
  | .available => 65
  | .unavailable => 85

inductive CheckState where
  | unknown
  | bad
  | good
deriving DecidableEq

def CheckState.char : CheckState → UInt8
  | .unknown => 48
  | .bad => 66
  | .good => 71

structure CheckStats where
  whence : TimeVal
  available : Availability
  state : CheckState
  duration : Nat
  status : Bytes

structure PbMetric (D : Type) where
  name : Bytes
  metrictype : UInt8
  valuedbl : Option D
  valuei64 : Option Int
  valueui64 : Option Nat
  valuei32 : Option Int
  valueui32 : Option Nat
  valuestr : Option Bytes
  whenceMs : Option Nat
deriving Encodable

structure PbStatus where
  available : UInt8
  state : UInt8
  duration : Int
  status : Bytes
deriving Encodable

structure PbBundle (D : Type) where
  status : Option PbStatus
  metrics : List (PbMetric D)
  metadata : List (Bytes × Bytes)
  period : Option Nat
  timeout : Option Nat
deriving Encodable

inductive Compression where
  | zlib
  | none
deriving DecidableEq

/-- Protobuf, compression with base64 and printing, by what is assumed of them. A line end behind the
base64 text is passed over. -/
structure PbEnv (D : Type) where
  uuidText : UuidText
  showDouble : D → Bytes
  pack : PbBundle D → Bytes
  unpack : Bytes → Option (PbBundle D)
  compressB64 : Compression → Bytes → Bytes
  decompressB64 : Compression → Nat → Bytes → Option Bytes
  unparse_plain : ∀ u, 0 ∉ uuidText.unparseLower u ∧ 9 ∉ uuidText.unparseLower u
  unpack_pack : ∀ b, unpack (pack b) = some b
  decompress_compress : ∀ ctype buf,
    decompressB64 ctype (buf.length % 2 ^ 32) (compressB64 ctype buf ++ [10]) = some buf

structure PbLog (D : Type) extends BfLog D where
  useCompression : Bool
  targetIp : Bytes
  period : Nat
  timeout : Nat

section Serializer

variable {D : Type}

def emptyMetric : PbMetric D := ⟨[], 0, none, none, none, none, none, none, none⟩

def logBundleMetric (m : LogMetric D) : PbMetric D :=
  let metric : PbMetric D :=
    { emptyMetric with
      name := m.fullName
      metrictype := m.value.typeChar
      whenceMs := if m.whence.ms = 0 then none else some m.whence.ms }
  match m.value with
  | .int32 v => { metric with valuei32 := v }
  | .uint32 v => { metric with valueui32 := v }
  | .int64 v => { metric with valuei64 := v }
  | .uint64 v => { metric with valueui64 := v }
  | .double v => { metric with valuedbl := v }
  | .string v => { metric with valuestr := v }
  | .histogram | .histogramCumulative | .absent | .guess => metric

structure BundleArrays (D : Type) where
  i : Nat
  metrics : Nat → List (PbMetric D)
  times : Nat → TimeVal

def BundleArrays.empty : BundleArrays D := ⟨0, fun _ => [], fun _ => .zero⟩

def bundleTime (whence : TimeVal) (m : LogMetric D) (time : TimeVal) : TimeVal :=
  if m.whence.sec = 0 then whence else if time.before m.whence then m.whence else time

def BundleArrays.add (perBundle : Nat) (whence : TimeVal) (st : BundleArrays D) (m : LogMetric D) :
    BundleArrays D :=
  let b := st.i / perBundle
  { i := st.i + 1
    metrics := Function.update st.metrics b ((st.metrics b).take (st.i % perBundle) ++ [logBundleMetric m])
    times := Function.update st.times b (bundleTime whence m (st.times b)) }

def PbLog.checkUuidStr (env : PbEnv D) (log : PbLog D) : Bytes :=
  (if log.extendedId then strlcat log.checkName [96] 768 else []) ++
    env.uuidText.unparseLower log.check.checkid

def PbLog.ctype (log : PbLog D) : Compression := if log.useCompression then .zlib else .none

def bundleTag : Compression → Bytes
  | .zlib => [66, 49, 9]
  | .none => [66, 50, 9]

def CheckStats.pbStatus (stats : CheckStats) : PbStatus :=
  ⟨stats.available.char, stats.state.char, (stats.duration : Int).bmod (2 ^ 32), stats.status⟩

def PbLog.bundle (log : PbLog D) (stats : CheckStats) (i : Nat) (metrics : List (PbMetric D)) :
    PbBundle D where
  status := if i = 0 then some stats.pbStatus else none
  metrics := metrics
  metadata := [([105, 112], log.targetIp)]
  period := if i = 0 then some log.period else none
  timeout := if i = 0 then some log.timeout else none

def PbLog.record (env : PbEnv D) (log : PbLog D) (time : TimeVal) (bundle : PbBundle D) : Bytes :=
  let buf := env.pack bundle
  bundleTag log.ctype ++ (timeField time ++ 9 :: (log.checkUuidStr env ++ 9 :: (log.check.target ++ 9 ::
    (log.check.module ++ 9 :: (log.check.name ++ 9 :: (sizeField buf ++ 9 ::
      (env.compressB64 log.ctype buf ++ [10])))))))

def timeToUse (whence bundleTime : TimeVal) : TimeVal :=
  if bundleTime.sec ≠ 0 ∧ bundleTime.before whence = true then bundleTime else whence

end Serializer

inductive B12Field where
  | nipstr
  | timestamp
  | uuidStr
  | target
  | module
  | name
  | ulenStr
deriving DecidableEq

inductive B12Error where
  | notBundle
  | shortLine (field : B12Field)
  | noTabAfter (field : B12Field)
  | failedToDecompress
  | protobufInvalid
deriving DecidableEq

section Decoder

variable {D : Type}

def b12Field (field : B12Field) (s : Bytes) : Except B12Error (Bytes × Bytes) :=
  bundleField (.shortLine field) (.noTabAfter field) s

def pbTimestamp (timestamp : Bytes) (m : PbMetric D) : Bytes :=
  if m.whenceMs.getD 0 = 0 then timestamp else timestampText (m.whenceMs.getD 0)

def pbValue (env : PbEnv D) (m : PbMetric D) : Bytes :=
  if m.metrictype = 105 then m.valuei32.elim nullText decimalInt
  else if m.metrictype = 73 then m.valueui32.elim nullText decimal
  else if m.metrictype = 108 then m.valuei64.elim nullText decimalInt
  else if m.metrictype = 76 then m.valueui64.elim nullText decimal
  else if m.metrictype = 110 then m.valuedbl.elim nullText env.showDouble
  else if m.metrictype = 115 then m.valuestr.getD nullText
  else []

def pbLine (env : PbEnv D) (timestamp uuidStr : Bytes) (m : PbMetric D) : Option Bytes :=
  if pbValue env m = [] ∧ m.metrictype ≠ 115 then none
  else some (77 :: 9 :: (pbTimestamp timestamp m ++ 9 :: (uuidStr ++ 9 :: (m.name ++ 9 :: m.metrictype :: 9 ::
    pbValue env m))))

def statusLine (timestamp uuidStr : Bytes) (s : PbStatus) : Bytes :=
  83 :: 9 :: (timestamp ++ 9 :: (uuidStr ++ 9 :: s.state :: 9 :: s.available :: 9 ::
    (decimalInt s.duration ++ 9 ::
    s.status)))

def bundleLines (env : PbEnv D) (timestamp uuidStr : Bytes) (b : PbBundle D) : List (Option Bytes) :=
  b.status.toList.map (fun s => some (statusLine timestamp uuidStr s)) ++
    b.metrics.map (pbLine env timestamp uuidStr)

def compressionOf (line : Bytes) : Except B12Error Compression :=
  if line.take 3 = bundleTag .zlib then .ok .zlib
  else if line.take 3 = bundleTag .none then .ok .none
  else .error .notBundle

def hasIp (noitIp : Int) (rest : Bytes) : Bool :=
  if noitIp = -1 then !isTimestamp rest else decide (0 < noitIp)

def b12ToSm (env : PbEnv D) (noitIp : Int) (line : Bytes) : Except B12Error (List (Option Bytes)) := do
  let ctype ← compressionOf line
  let rest := line.drop 3
  let rest ← if hasIp noitIp rest then Prod.snd <$> b12Field .nipstr rest else pure rest
  let (timestamp, rest) ← b12Field .timestamp rest
  let (uuidStr, rest) ← b12Field .uuidStr rest
  let (_, rest) ← b12Field .target rest
  let (_, rest) ← b12Field .module rest
  let (_, rest) ← b12Field .name rest
  let (ulen, rest) ← b12Field .ulenStr rest
  match env.decompressB64 ctype (strtoul ulen % 2 ^ 32) rest with
  | none => .error .failedToDecompress
  | some raw =>
    match env.unpack raw with
    | none => .error .protobufInvalid
    | some bundle => .ok (bundleLines env timestamp uuidStr bundle)

end Decoder

section Chunks

variable {α : Type}

def chunk (k : Nat) (l : List α) (b : Nat) : List α := (l.drop (b * k)).take k

theorem length_chunk {k : Nat} (hk : 0 < k) (l : List α) :
    (chunk k l (l.length / k)).length = l.length % k := by
  have hlt := Nat.mod_lt l.length hk
  have hdiv := Nat.div_add_mod l.length k
  rw [chunk, List.length_take, List.length_drop, Nat.mul_comm]
  omega

theorem chunk_snoc {k : Nat} (hk : 0 < k) (l : List α) (x : α) (b : Nat) :
    chunk k (l ++ [x]) b = if b = l.length / k then chunk k l b ++ [x] else chunk k l b := by
  have hlt := Nat.mod_lt l.length hk
  have hdiv := Nat.div_add_mod l.length k
  unfold chunk
  split_ifs with hb
  · have hle : b * k ≤ l.length := by rw [hb, Nat.mul_comm]; omega
    have hrest : (l.drop (b * k)).length < k := by rw [List.length_drop, hb, Nat.mul_comm]; omega
    rw [List.drop_append_of_le_length hle, List.take_of_length_le hrest.le, List.take_of_length_le]
    rw [List.length_append, List.length_singleton]
    omega
  · rcases lt_or_gt_of_ne hb with hb | hb
    · have hnext : (b + 1) * k ≤ l.length := (Nat.mul_le_mul_right k hb).trans (Nat.div_mul_le_self _ _)
      rw [Nat.succ_mul] at hnext
      rw [List.drop_append_of_le_length (by omega), List.take_append_of_le_length]
      rw [List.length_drop]
      omega
    · have hpast : l.length < b * k := by
        have := Nat.mul_le_mul_right k hb
        rw [Nat.succ_mul, Nat.mul_comm] at this
        omega
      rw [List.drop_eq_nil_of_le hpast.le, List.drop_eq_nil_of_le]
      rw [List.length_append, List.length_singleton]
      omega

end Chunks

section Fill

variable {D : Type} {log : PbLog D} {whence : TimeVal}

structure BundleArrays.Holds (log : PbLog D) (whence : TimeVal) (st : BundleArrays D)
    (acc : List (LogMetric D)) :
    Prop where
  count : st.i = acc.length
  metrics : ∀ b, st.metrics b = (chunk log.perBundle acc b).map logBundleMetric
  times : ∀ b, (∃ m ∈ chunk log.perBundle acc b, m.whence.sec = 0) → (st.times b).before whence = false
  usec : ∀ b, (st.times b).usec < 1000000

theorem TimeVal.before_self (t : TimeVal) : t.before t = false := by
  simp [TimeVal.before]

theorem TimeVal.not_before_of_before {a b c : TimeVal} (hab : a.before b = false) (hac : a.before c = true) :
    c.before b = false := by
  simp only [TimeVal.before, Bool.or_eq_false_iff, Bool.and_eq_false_iff, Bool.or_eq_true, Bool.and_eq_true,
    decide_eq_true_eq, decide_eq_false_iff_not] at hab hac ⊢
  omega

theorem perBundle_pos (log : BfLog D) : 0 < log.perBundle := by
  unfold BfLog.perBundle
  split
  · decide
  · split_ifs <;> omega

theorem BundleArrays.Holds.add {st : BundleArrays D} {acc : List (LogMetric D)} (h : st.Holds log whence acc)
    (hwhence : whence.usec < 1000000) {m : LogMetric D} (hm : m.whence.usec < 1000000) :
    (st.add log.perBundle whence m).Holds log whence (acc ++ [m]) := by
  have hpos := perBundle_pos log.toBfLog
  refine ⟨?_, fun b => ?_, fun b hb => ?_, fun b => ?_⟩
  · rw [List.length_append, List.length_singleton, ← h.count]
    rfl
  · simp only [BundleArrays.add]
    rw [chunk_snoc hpos, ← h.count]
    by_cases hb : b = st.i / log.perBundle
    · subst hb
      have hlen : ((chunk log.perBundle acc (st.i / log.perBundle)).map logBundleMetric).length =
          st.i % log.perBundle := by
        rw [List.length_map, h.count, length_chunk hpos]
      rw [Function.update_self, if_pos rfl, h.metrics, List.take_of_length_le hlen.le, List.map_append]
      rfl
    · rw [Function.update_of_ne hb, if_neg hb, h.metrics]
  · simp only [BundleArrays.add]
    rw [chunk_snoc hpos, ← h.count] at hb
    by_cases hi : b = st.i / log.perBundle
    · subst hi
      rw [Function.update_self, bundleTime]
      by_cases hm0 : m.whence.sec = 0
      · rw [if_pos hm0]
        exact whence.before_self
      · rw [if_neg hm0]
        rw [if_pos rfl] at hb
        have hold : (st.times (st.i / log.perBundle)).before whence = false := by
          obtain ⟨m', hmem, hzero⟩ := hb
          rcases List.mem_append.mp hmem with hmem | hmem
          · exact h.times _ ⟨m', hmem, hzero⟩
          · rw [List.mem_singleton.mp hmem] at hzero
            exact absurd hzero hm0
        split_ifs with hlater
        · exact TimeVal.not_before_of_before hold hlater
        · exact hold
    · rw [Function.update_of_ne hi]
      rw [if_neg hi] at hb
      exact h.times b hb
  · simp only [BundleArrays.add]
    by_cases hi : b = st.i / log.perBundle
    · subst hi
      rw [Function.update_self, bundleTime]
      split_ifs
      · exact hwhence
      · exact hm
      · exact h.usec _
    · rw [Function.update_of_ne hi]
      exact h.usec b

end Fill

section RoundTrip

variable {D : Type} {env : PbEnv D} {log : PbLog D} {whence : TimeVal}

structure PbLog.Plain (log : PbLog D) : Prop where
  target : 0 ∉ log.check.target ∧ 9 ∉ log.check.target
  module : 0 ∉ log.check.module ∧ 9 ∉ log.check.module
  name : 0 ∉ log.check.name ∧ 9 ∉ log.check.name

theorem mem_strlcat {dst src : Bytes} {size : Nat} {c : UInt8} (h : c ∈ strlcat dst src size) :
    c ∈ dst ∨ c ∈ src := by
  unfold strlcat at h
  split_ifs at h
  · exact (List.mem_append.mp h).imp_right List.mem_of_mem_take
  · exact .inl h

theorem PbLog.Plain.checkUuidStr (h : log.Plain) (env : PbEnv D) {c : UInt8} (hc : c = 0 ∨ c = 9) :
    c ∉ log.checkUuidStr env := by
  have hne : c ≠ 96 := by rcases hc with rfl | rfl <;> decide
  have hplain : ∀ {s : Bytes}, 0 ∉ s ∧ 9 ∉ s → c ∉ s := fun hs => by
    rcases hc with rfl | rfl
    · exact hs.1
    · exact hs.2
  have hname : c ∉ log.checkName := by
    intro hmem
    unfold BfLog.checkName at hmem
    split_ifs at hmem
    · rcases mem_strlcat hmem with hmem | hmem
      · rcases mem_strlcat hmem with hmem | hmem
        · rcases mem_strlcat hmem with hmem | hmem
          · rcases mem_strlcat hmem with hmem | hmem
            · rcases mem_strlcat hmem with hmem | hmem
              · cases hmem
              · exact hplain h.target hmem
            · exact hne (List.mem_singleton.mp hmem)
          · exact hplain h.module hmem
        · exact hne (List.mem_singleton.mp hmem)
      · exact hplain h.name hmem
    · cases hmem
  intro hmem
  rcases List.mem_append.mp hmem with hmem | hmem
  · split_ifs at hmem
    · rcases mem_strlcat hmem with hmem | hmem
      · exact hname hmem
      · exact hne (List.mem_singleton.mp hmem)
    · cases hmem
  · exact hplain (env.unparse_plain _) hmem

theorem compressionOf_bundleTag (ctype : Compression) (rest : Bytes) :
    compressionOf (bundleTag ctype ++ rest) = .ok ctype := by
  cases ctype <;> rfl

theorem drop_bundleTag (ctype : Compression) (rest : Bytes) : (bundleTag ctype ++ rest).drop 3 = rest := by
  cases ctype <;> rfl

theorem hasIp_timeField {noitIp : Int} (hip : noitIp = 0 ∨ noitIp = -1) {time : TimeVal}
    (htime : time.usec < 1000000) (rest : Bytes) : hasIp noitIp (timeField time ++ 9 :: rest) = false := by
  unfold hasIp
  rcases hip with rfl | rfl
  · rfl
  · rw [if_pos rfl, isTimestamp_timeField htime]
    rfl

theorem b12Field_append (field : B12Field) {s : Bytes} (h0 : 0 ∉ s) (h9 : 9 ∉ s) (rest : Bytes) :
    b12Field field (s ++ 9 :: rest) = .ok (s, rest) :=
  bundleField_append h0 h9 rest

theorem decompress_sized (env : PbEnv D) (ctype : Compression) (buf : Bytes) :
    env.decompressB64 ctype (strtoul (sizeField buf) % 2 ^ 32) (env.compressB64 ctype buf ++ [10]) =
      some buf := by
  rw [sizeField, strtoul_decimalInt_bmod]
  exact env.decompress_compress ctype buf

theorem ok_bind {α β : Type} (a : α) (f : α → Except B12Error β) : (Except.ok a >>= f) = f a := rfl

theorem b12ToSm_record (hlog : log.Plain) {noitIp : Int} (hip : noitIp = 0 ∨ noitIp = -1) {time : TimeVal}
    (htime : time.usec < 1000000) (bundle : PbBundle D) :
    b12ToSm env noitIp (log.record env time bundle) =
      .ok (bundleLines env (timeField time) (log.checkUuidStr env) bundle) := by
  have hunpack := env.unpack_pack bundle
  unfold PbLog.record
  generalize env.pack bundle = buf at hunpack
  have ht := b12Field_append .timestamp (@not_mem_timeField time 0 rfl (by decide))
    (@not_mem_timeField time 9 rfl (by decide))
  have hu := b12Field_append .uuidStr (hlog.checkUuidStr env (.inl rfl)) (hlog.checkUuidStr env (.inr rfl))
  have hl := b12Field_append .ulenStr (@not_mem_sizeField buf 0 rfl (by decide))
    (@not_mem_sizeField buf 9 rfl (by decide))
  -- column by column, each read up to its tab
  rw [b12ToSm, compressionOf_bundleTag, ok_bind]
  dsimp only
  rw [drop_bundleTag, hasIp_timeField hip htime, if_neg Bool.false_ne_true, pure_bind, ht, ok_bind]
  dsimp only
  rw [hu, ok_bind]
  dsimp only
  rw [b12Field_append .target hlog.target.1 hlog.target.2, ok_bind]
  dsimp only
  rw [b12Field_append .module hlog.module.1 hlog.module.2, ok_bind]
  dsimp only
  rw [b12Field_append .name hlog.name.1 hlog.name.2, ok_bind]
  dsimp only
  rw [hl, ok_bind]
  dsimp only
  rw [decompress_sized]
  dsimp only
  rw [hunpack]

def TimeVal.Counted (t : TimeVal) : Prop := t.usec < 1000000 ∧ t.sec * 1000 + 999 < 2 ^ 64

/-- The line of a status. -/
def CheckStats.IsLine (stats : CheckStats) (ms : Nat) (id line : Bytes) : Prop :=
  ∃ time, TimeShown time ms ∧ line = 83 :: 9 :: (time ++ 9 :: (id ++ 9 :: stats.state.char :: 9 ::
    stats.available.char :: 9 :: (decimalInt ((stats.duration : Int).bmod (2 ^ 32)) ++ 9 :: stats.status)))

end RoundTrip

def hexPbEnv : PbEnv Int where
  uuidText := standardUuidText
  showDouble := decimalInt
  pack b := List.replicate (Encodable.encode b) 0
  unpack l := Encodable.decode l.length
  compressB64 _ buf := buf.flatMap hexByte
  decompressB64 _ _ text := parseHex (upTo 10 text)
  unparse_plain u :=
    ⟨fun h => absurd (le_of_mem_standardUnparseLower h) (by decide),
      fun h => absurd (le_of_mem_standardUnparseLower h) (by decide)⟩
  unpack_pack b := by rw [List.length_replicate, Encodable.encodek]
  decompress_compress _ buf := by
    have hplain : 10 ∉ buf.flatMap hexByte := fun h => absurd (le_of_mem_hexBytes h) (by decide)
    rw [upTo_append_cons hplain, parseHex_hexByte]

def singleLog : PbLog Int where
  toBfLog := { openLog with metricsPerBundle := some 1 }
  useCompression := true
  targetIp := [49]
  period := 60000
  timeout := 5000

def goodStats : CheckStats := ⟨⟨1, 0⟩, .available, .good, 7, [111, 107]⟩

end Reconnoiter
