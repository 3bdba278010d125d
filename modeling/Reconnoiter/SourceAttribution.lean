import Reconnoiter.BundleRecords
import Reconnoiter.BatchExpansion
import Reconnoiter.MessageLine

/-! The messages that the director distributes for a record, and the source that they name. -/

namespace Reconnoiter

structure DirectorEnv (D : Type) where
  pb : PbEnv D
  bf : BfEnv D
  line : LineEnv D
  dropBeforeThresholdMs : Nat

section Director

variable {D : Type}

def getNoit (payload : Bytes) : Option Bytes :=
  let second := after 9 payload
  if 9 ∈ second then some (upTo 9 second) else none

def bToSm (env : DirectorEnv D) (mode : HasNoit) (payload : Bytes) : List (Option Bytes) :=
  if payload.take 3 = [66, 49, 9] ∨ payload.take 3 = [66, 50, 9] then
    (b12ToSm env.pb mode.toInt payload).toOption.getD []
  else if payload.take 3 = [66, 70, 9] then (bfToSm env.bf payload).toOption.getD []
  else []

def handleLine (env : DirectorEnv D) (mode : HasNoit) (noit : Option Bytes) (payload : Bytes) :
    Option (MetricMessage D) :=
  if payload.head? ∈ [some 67, some 68, some 83, some 72, some 77] then
    match parseLine env.line mode payload with
    | .error _ => none
    | .ok m =>
      if env.dropBeforeThresholdMs ≠ 0 ∧ m.whenceMs < env.dropBeforeThresholdMs then none
      else some { m with noit := m.noit.or noit }
  else none

/-- `handle_metric_buffer`. The lines of a bundle are no bundles themselves. -/
def handleMetricBuffer (env : DirectorEnv D) (mode : HasNoit) (noit : Option Bytes) (payload : Bytes) :
    List (MetricMessage D) :=
  if payload.head? = some 66 then
    (bToSm env mode payload).filterMap fun slot =>
      slot.bind fun line => handleLine env .no (getNoit payload) (upTo 0 line)
  else (handleLine env mode noit payload).toList

end Director

section Expansion

variable {D : Type} {env : DirectorEnv D} {mode : HasNoit} {payload line : Bytes}

theorem head_of_mem_bundleLines {pb : PbEnv D} {timestamp uuidStr : Bytes} {b : PbBundle D}
    (h : some line ∈ bundleLines pb timestamp uuidStr b) : line.head? = some 77 ∨ line.head? = some 83 := by
  rcases List.mem_append.mp h with h | h
  · obtain ⟨s, -, hs⟩ := List.mem_map.mp h
    cases hs
    exact .inr rfl
  · obtain ⟨m, -, hm⟩ := List.mem_map.mp h
    unfold pbLine at hm
    split_ifs at hm
    cases hm
    exact .inl rfl

theorem head_of_mem_fillSlot {bf : BfEnv D} {b : MetricBatch D} {i : Nat} {name : Bytes}
    {samples : List (FbSample D)} {out out' : List (Option Bytes)}
    (h : fillSlot bf b i name samples out = .ok out') (hmem : some line ∈ out') :
    some line ∈ out ∨ line.head? = some 77 := by
  rw [fillSlot_eq] at h
  split at h
  · cases h
    exact .inl hmem
  case h_2 last hlast =>
    split_ifs at h
    cases h
    rcases List.mem_or_eq_of_mem_set hmem with hmem | hmem
    · exact .inl hmem
    · obtain ⟨s, -, hs⟩ := List.mem_filterMap.mp (List.mem_of_getLast? hlast)
      cases hmem
      unfold sampleLine at hs
      split at hs
      · cases hs
      · cases hs
        exact .inr rfl

theorem head_of_mem_fillLines {bf : BfEnv D} {b : MetricBatch D} {i : Nat} {metrics : List (FbMetric D)}
    {out out' : List (Option Bytes)} (h : fillLines bf b i metrics out = .ok out') (hmem : some line ∈ out') :
    some line ∈ out ∨ line.head? = some 77 := by
  induction metrics generalizing i out with
  | nil =>
    cases h
    exact .inl hmem
  | cons m metrics ih =>
    rw [fillLines] at h
    split at h
    · cases h
    case h_2 out₁ hslot =>
      rcases ih h with hmem₁ | hhead
      · exact head_of_mem_fillSlot hslot hmem₁
      · exact .inr hhead

theorem mem_of_b12Field {field : B12Field} {s : Bytes} {r : Bytes × Bytes} (h : b12Field field s = .ok r) :
    9 ∈ s := by
  unfold b12Field bundleField at h
  split_ifs at h with h0 h9
  exact h9

theorem b12ToSm_eq_ok {pb : PbEnv D} {noitIp : Int} {lines : List (Option Bytes)}
    (h : b12ToSm pb noitIp payload = .ok lines) :
    9 ∈ payload.drop 3 ∧ ∃ timestamp uuidStr b, lines = bundleLines pb timestamp uuidStr b := by
  obtain ⟨ctype, -, h⟩ := bind_eq_ok.mp h
  dsimp only at h
  rw [ite_bind] at h
  obtain ⟨rest, hrest, h⟩ := bind_eq_ok.mp h
  obtain ⟨⟨timestamp, rest₁⟩, htimestamp, h⟩ := bind_eq_ok.mp h
  obtain ⟨⟨uuidStr, rest₂⟩, -, h⟩ := bind_eq_ok.mp h
  obtain ⟨⟨target, rest₃⟩, -, h⟩ := bind_eq_ok.mp h
  obtain ⟨⟨module, rest₄⟩, -, h⟩ := bind_eq_ok.mp h
  obtain ⟨⟨name, rest₅⟩, -, h⟩ := bind_eq_ok.mp h
  obtain ⟨⟨ulen, rest₆⟩, -, h⟩ := bind_eq_ok.mp h
  constructor
  · split_ifs at hrest
    · cases hip : b12Field .nipstr (payload.drop 3) with
      | error e =>
        rw [hip] at hrest
        cases hrest
      | ok r => exact mem_of_b12Field hip
    · cases hrest
      exact mem_of_b12Field htimestamp
  · dsimp only at h
    split at h
    · cases h
    · split at h
      · cases h
      · cases h
        exact ⟨timestamp, uuidStr, _, rfl⟩

theorem bfToSm_eq_ok {bf : BfEnv D} {lines : List (Option Bytes)} (h : bfToSm bf payload = .ok lines) :
    9 ∈ payload.drop 3 ∧ ∃ b, batchToSm bf b = .ok lines := by
  unfold bfToSm at h
  split_ifs at h
  split at h
  · cases h
  case h_2 whence rest hwhence =>
    have h9 : 9 ∈ payload.drop 3 := by
      by_contra h9
      obtain ⟨e, he⟩ := @setField_no_tab .whenceStr _ h9
      rw [he] at hwhence
      cases hwhence
    split at h
    · cases h
    · split at h
      · cases h
      · split at h
        · cases h
        · exact ⟨h9, _, h⟩

theorem after_of_tag {x : UInt8} (hx : x ≠ 9) (h : payload.take 3 = [66, x, 9]) :
    after 9 payload = payload.drop 3 := by
  have hpayload : payload = [66, x] ++ 9 :: payload.drop 3 := by
    have happend := List.take_append_drop 3 payload
    rw [h] at happend
    exact happend.symm
  have hplain : 9 ∉ [66, x] := by simp [Ne.symm hx]
  have hafter := after_append_cons hplain (payload.drop 3)
  rwa [← hpayload] at hafter

theorem mem_bToSm (h : some line ∈ bToSm env mode payload) :
    9 ∈ after 9 payload ∧ (line.head? = some 77 ∨ line.head? = some 83) := by
  unfold bToSm at h
  split_ifs at h with h12 hf
  · have hafter : after 9 payload = payload.drop 3 :=
      h12.elim (after_of_tag (by decide)) (after_of_tag (by decide))
    cases hsm : b12ToSm env.pb mode.toInt payload with
    | error e =>
      rw [hsm] at h
      cases h
    | ok lines =>
      obtain ⟨h9, timestamp, uuidStr, b, rfl⟩ := b12ToSm_eq_ok hsm
      rw [hsm] at h
      exact ⟨hafter ▸ h9, head_of_mem_bundleLines h⟩
  · cases hsm : bfToSm env.bf payload with
    | error e =>
      rw [hsm] at h
      cases h
    | ok lines =>
      obtain ⟨h9, b, hb⟩ := bfToSm_eq_ok hsm
      rw [hsm] at h
      refine ⟨after_of_tag (by decide) hf ▸ h9, .inl ?_⟩
      exact (head_of_mem_fillLines hb h).resolve_left fun hmem => by cases (List.mem_replicate.mp hmem).2
  · cases h

theorem head_upTo_zero {c : UInt8} (hc : c ≠ 0) (h : line.head? = some c) : (upTo 0 line).head? = some c := by
  cases line with
  | nil => cases h
  | cons d line =>
    cases h
    rw [upTo, List.takeWhile_cons_of_pos (by simpa using hc)]
    rfl

/-- The recursion of `handle_metric_buffer` ends with the lines of a bundle. -/
theorem handleMetricBuffer_bundle (noit : Option Bytes) (h : payload.head? = some 66) :
    handleMetricBuffer env mode noit payload = (bToSm env mode payload).flatMap fun slot =>
      slot.elim [] fun line => handleMetricBuffer env .no (getNoit payload) (upTo 0 line) := by
  rw [handleMetricBuffer, if_pos h, List.filterMap_eq_flatMap_toList]
  apply List.flatMap_congr
  intro slot hslot
  cases slot with
  | none => rfl
  | some line =>
    have hhead : (upTo 0 line).head? ≠ some 66 := by
      rcases (mem_bToSm hslot).2 with hline | hline
      · rw [head_upTo_zero (by decide) hline]
        decide
      · rw [head_upTo_zero (by decide) hline]
        decide
    rw [Option.elim_some, handleMetricBuffer, if_neg hhead]
    rfl

end Expansion

section Attribution

variable {D : Type} {env : DirectorEnv D} {mode : HasNoit} {payload : Bytes}

instance (line : Bytes) : Decidable (TimestampFirst line) := decidable_of_iff _ (isTimestamp_iff line)

/-- A record has a column for its source when the caller says so or else when no time stands there. -/
def HasSource (mode : HasNoit) (payload : Bytes) : Prop :=
  match mode with
  | .yes => True
  | .no => False
  | .detect => ¬ TimestampFirst (after 9 payload)

instance : Decidable (HasSource mode payload) := by
  unfold HasSource
  cases mode <;> infer_instance

def recordSource (mode : HasNoit) (payload : Bytes) : Option Bytes :=
  if HasSource mode payload then some (upTo 9 (after 9 payload)) else none

theorem TimestampFirst.of_dropLast {s : Bytes} (h : TimestampFirst s.dropLast) : TimestampFirst s := by
  obtain ⟨sec, msec, rest, hs, hsec⟩ := h
  have hne : s ≠ [] := by
    rintro rfl
    simp at hs
  refine ⟨sec, msec, rest ++ [s.getLast hne], ?_, hsec⟩
  have hlast := List.dropLast_append_getLast hne
  rw [hs] at hlast
  simpa using hlast.symm

theorem TimestampFirst.dropLast {s : Bytes} (h : TimestampFirst s) (hrest : after 9 s ≠ []) :
    TimestampFirst s.dropLast := by
  obtain ⟨sec, msec, rest, rfl, hne, hsecs, hlen, hmsecs⟩ := h
  have hs : sec ++ 46 :: (msec ++ 9 :: rest) = (sec ++ 46 :: msec) ++ 9 :: rest := by simp
  rw [hs, after_append_cons (tab_not_mem_time hsecs hmsecs)] at hrest
  refine ⟨sec, msec, rest.dropLast, ?_, hne, hsecs, hlen, hmsecs⟩
  rw [hs, List.append_cons, List.dropLast_append_of_ne_nil hrest]
  simp

theorem resolve_eq_true_iff (htime : mode.resolve (after 9 payload) = true → 9 ∈ after 9 (after 9 payload)) :
    mode.resolve (after 9 payload) = true ↔ HasSource mode payload := by
  cases mode with
  | yes => exact iff_of_true rfl trivial
  | no => exact iff_of_false Bool.false_ne_true id
  | detect =>
    simp only [HasNoit.resolve, HasSource, Bool.not_eq_true', ← Bool.not_eq_true, isTimestamp_iff] at htime ⊢
    refine ⟨fun hcut hfull => hcut (hfull.dropLast ?_), fun hfull hcut => hfull hcut.of_dropLast⟩
    exact List.ne_nil_of_mem (htime hcut)

theorem handleLine_noit {noit : Option Bytes} {m : MetricMessage D}
    (h : handleLine env mode noit payload = some m) :
    m.noit = (recordSource mode payload).or noit := by
  unfold handleLine at h
  split_ifs at h
  split at h
  · cases h
  case h_2 parsed hparsed =>
    split_ifs at h
    cases h
    obtain ⟨hnoit, htime⟩ := parseLine_noit hparsed
    dsimp only
    rw [hnoit, recordSource]
    simp only [resolve_eq_true_iff htime]

theorem handleMetricBuffer_bundle_noit {noit : Option Bytes} {m : MetricMessage D}
    (hbundle : payload.head? = some 66)
    (h : m ∈ handleMetricBuffer env mode noit payload) : m.noit = some (upTo 9 (after 9 payload)) := by
  rw [handleMetricBuffer, if_pos hbundle] at h
  obtain ⟨slot, hslot, hline⟩ := List.mem_filterMap.mp h
  obtain ⟨line, rfl, hline⟩ := Option.bind_eq_some_iff.mp hline
  have hnoit : getNoit payload = some (upTo 9 (after 9 payload)) := if_pos (mem_bToSm hslot).1
  rw [handleLine_noit hline, hnoit]
  rfl

/-- A message from a record given without a source names the record's own source, unless the record is a
bundle without one: its messages then name the time that stands in the second column. -/
theorem message_source_iff (env : DirectorEnv D) (mode : HasNoit) (payload : Bytes) {m : MetricMessage D}
    (h : m ∈ handleMetricBuffer env mode none payload) :
    m.noit = recordSource mode payload ↔ (payload.head? = some 66 → HasSource mode payload) := by
  by_cases hbundle : payload.head? = some 66
  · rw [handleMetricBuffer_bundle_noit hbundle h, recordSource]
    by_cases hsource : HasSource mode payload
    · rw [if_pos hsource]
      exact iff_of_true rfl fun _ => hsource
    · rw [if_neg hsource]
      exact iff_of_false (Option.some_ne_none _) fun hall => hsource (hall hbundle)
  · rw [handleMetricBuffer, if_neg hbundle, Option.mem_toList] at h
    rw [handleLine_noit h, Option.or_none]
    exact iff_of_true rfl fun hc => absurd hc hbundle

end Attribution

def plainLineEnv : LineEnv Int where
  uuidText := standardUuidText
  base64 := standardBase64
  qsort := insertionQSort _
  strtod := strtoll
  millis _ := 0

def plainDirectorEnv : DirectorEnv Int := ⟨hexPbEnv, hexEnv, plainLineEnv, 0⟩

def statusBundle : Bytes := singleLog.record hexPbEnv ⟨1, 0⟩ (singleLog.bundle goodStats 0 [])

theorem bundle_named_after_time :
    ∃ m ∈ handleMetricBuffer plainDirectorEnv .detect none statusBundle,
      m.noit = some [49, 46, 48, 48, 48] ∧ recordSource .detect statusBundle = none := by
  obtain ⟨rest, hbundle⟩ : ∃ rest, statusBundle = [66, 49, 9] ++ (timeField ⟨1, 0⟩ ++ 9 :: rest) := ⟨_, rfl⟩
  have hlines : b12ToSm hexPbEnv (-1) statusBundle = .ok (bundleLines hexPbEnv (timeField ⟨1, 0⟩)
      (singleLog.checkUuidStr hexPbEnv) (singleLog.bundle goodStats 0 [])) :=
    b12ToSm_record ⟨by decide, by decide, by decide⟩ (.inr rfl) (by decide) _
  have htag : statusBundle.take 3 = [66, 49, 9] := by rw [hbundle]; rfl
  have hsecond : after 9 statusBundle = timeField ⟨1, 0⟩ ++ 9 :: rest := by
    rw [after_of_tag (by decide) htag, hbundle]
    rfl
  have hnoit : getNoit statusBundle = some [49, 46, 48, 48, 48] := by
    have h9 : 9 ∉ timeField ⟨1, 0⟩ := by decide
    rw [getNoit, hsecond, if_pos (List.mem_append_right _ List.mem_cons_self), upTo_append_cons h9]
    decide
  refine ⟨⟨some [49, 46, 48, 48, 48], 1000, 0, Uuid.zero, [], 48, .string none⟩, ?_, rfl, ?_⟩
  · rw [handleMetricBuffer, if_pos (by rw [hbundle]; rfl), hnoit, bToSm, if_pos (.inl htag)]
    rw [show plainDirectorEnv.pb = hexPbEnv from rfl, show HasNoit.detect.toInt = -1 from rfl, hlines]
    decide +kernel
  · refine if_neg (not_not_intro ?_)
    rw [hsecond]
    exact (isTimestamp_iff _).mp (isTimestamp_timeField (by decide) _)

def sourcedLine : Bytes :=
  83 :: 9 :: 110 :: (statusLine (timeField ⟨1, 0⟩) (standardUuidText.unparseLower Uuid.zero)
    goodStats.pbStatus).tail

/-- The message of a line with the source n has the line's source. -/
theorem message_source_line :
    (⟨some [110], 1000, 0, Uuid.zero, [], 48, .string none⟩ : MetricMessage Int) ∈
        handleMetricBuffer plainDirectorEnv .detect none sourcedLine ∧
      some [110] = recordSource .detect sourcedLine := by
  have hmem : (⟨some [110], 1000, 0, Uuid.zero, [], 48, .string none⟩ : MetricMessage Int) ∈
      handleMetricBuffer plainDirectorEnv .detect none sourcedLine := by decide +kernel
  exact ⟨hmem, (message_source_iff plainDirectorEnv .detect sourcedLine hmem).mpr fun h =>
    absurd h (by decide)⟩

theorem handleMetricBuffer_status :
    handleMetricBuffer plainDirectorEnv .detect none statusBundle =
      (bToSm plainDirectorEnv .detect statusBundle).flatMap fun slot => slot.elim [] fun line =>
        handleMetricBuffer plainDirectorEnv .no (getNoit statusBundle) (upTo 0 line) :=
  handleMetricBuffer_bundle none rfl

end Reconnoiter
