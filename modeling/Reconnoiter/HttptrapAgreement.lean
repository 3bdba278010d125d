import Reconnoiter.Httptrap

/-! Whether the immediate log of an httptrap check says the same as its statistics. -/

namespace Reconnoiter

def Recording.Agrees (r : Recording) : Prop := ∀ m, r.stats = some m → r.immediate = some m

def Scalar.Short : Scalar → Prop
  | .string value => value.length < 256
  | _ => True

def ReadsAsNumber (strtod : Strtod) (text : Bytes) : Prop := (guessType strtod text).1 ≠ .string

/-- The values whose entry in the log is the one in the statistics. -/
def Scalar.LoggedAsSet (strtod : Strtod) : Scalar → Prop
  | .null => True
  | .boolean _ => False
  | .number value => ReadsAsNumber strtod (cString (value.take 127))
  | .string value => ReadsAsNumber strtod (cString value)

/-- No statistic is set, since the name is refused or taken. -/
def TrapEnv.Unset (env : TrapEnv) (key : Bytes) : Prop :=
  ∀ name, buildTagExtendedName env.toMetricEnv (env.trackFiltered key) = some name → env.taken name = true

def TrapEnv.Consistent (env : TrapEnv) (key : Bytes) (leaf : Scalar) : Prop :=
  env.Unset key ∨ (env.trackFiltered key).length < maxMetricTaggedName ∧ leaf.LoggedAsSet env.strtod

section

variable {env : TrapEnv} {key name : Bytes} {leaf : Scalar} {t : MetricType} {v : Option Bytes}

theorem record_unset (h : env.Unset key) : (env.record key leaf t v).Agrees := by
  intro m hm
  simp only [TrapEnv.record, statsSetMetric] at hm
  cases hname : buildTagExtendedName env.toMetricEnv (env.trackFiltered key) with
  | none => simp [hname] at hm
  | some name =>
    have htaken := h name hname
    cases hp : populateMetric env.toMetricEnv name t v with
    | none => simp [hname, hp] at hm
    | some m => simp [hname, hp, htaken] at hm

theorem record_set (hname : buildTagExtendedName env.toMetricEnv (env.trackFiltered key) = some name)
    (htaken : env.taken name = false) {m : Metric} (hm : populateMetric env.toMetricEnv name t v = some m) :
    (env.record key leaf t v).Agrees ↔ (env.trackFiltered key).length < maxMetricTaggedName ∧
      env.metricLocalAccrue (env.trackFiltered key) t v = some m := by
  have hstats : (env.record key leaf t v).stats = some m := by
    simp [TrapEnv.record, statsSetMetric, hname, hm, htaken]
  have himm : (env.record key leaf t v).immediate = env.metricLocalAccrue (env.trackFiltered key) t v := rfl
  rw [Recording.Agrees, hstats, himm]
  constructor
  · intro h
    have hlogged := h m rfl
    refine ⟨?_, hlogged⟩
    by_contra hlong
    rw [TrapEnv.metricLocalAccrue, metricCoerce,
      if_pos (by unfold maxMetricTaggedName at hlong ⊢; omega)] at hlogged
    exact absurd hlogged (by simp)
  · rintro ⟨-, hlogged⟩ m' hm'
    rw [hlogged, hm']

theorem metricLocalAccrue_eq (hname : buildTagExtendedName env.toMetricEnv
    (env.trackFiltered key) = some name)
    (hshort : (env.trackFiltered key).length < maxMetricTaggedName) :
    env.metricLocalAccrue (env.trackFiltered key) t v = TrapEnv.metricLocalTrackOrLog
      ⟨name, (coerceValue env.strtod t v).1, (coerceValue env.strtod t v).2⟩ := by
  have hle : ¬ maxMetricTaggedName - 1 < (env.trackFiltered key).length := by
    unfold maxMetricTaggedName at hshort ⊢
    omega
  rw [TrapEnv.metricLocalAccrue, metricCoerce, if_neg hle, hname]
  rfl

theorem guessed_logged_iff (hname : buildTagExtendedName env.toMetricEnv (env.trackFiltered key) = some name)
    (hshort : (env.trackFiltered key).length < maxMetricTaggedName) {mem : Bytes}
    (hmem : (cString mem).length < 256) :
    env.metricLocalAccrue (env.trackFiltered key) .guess (some mem) =
        populateMetric env.toMetricEnv name .guess (some mem) ↔
      ReadsAsNumber env.strtod (cString mem) := by
  rw [metricLocalAccrue_eq hname hshort]
  simp only [coerceValue, populateMetric, ReadsAsNumber, List.take_of_length_le (Nat.le_of_lt_succ hmem)]
  obtain hs | ⟨t, r, hr, ht, hlen⟩ := guessType_cases env.strtod (cString mem)
  · obtain hs' | ⟨t', r', hr', ht', -⟩ := guessType_cases env.strtod (trim (cString mem))
    · simp [hs, hs', TrapEnv.metricLocalTrackOrLog]
    · rcases ht' with rfl | rfl | rfl <;> simp [hs, hr', TrapEnv.metricLocalTrackOrLog]
  · have hnumber : (guessType env.strtod (cString mem)).1 ≠ .string := by
      rw [hr]
      rcases ht with rfl | rfl | rfl <;> simp
    have htake : r.take 8 = r := List.take_of_length_le hlen.le
    rw [guessType_trim hnumber, hr]
    rcases ht with rfl | rfl | rfl <;> simp [TrapEnv.metricLocalTrackOrLog, htake]

theorem cString_append_null (a : Bytes) : cString (a ++ [0]) = cString a := by
  unfold cString upTo
  induction a with
  | nil => rfl
  | cons c a ih => rw [List.cons_append, List.takeWhile_cons, List.takeWhile_cons, ih]

theorem length_cString_le (s : Bytes) : (cString s).length ≤ s.length := (List.takeWhile_sublist _).length_le

theorem populateMetric_guess (mem : Bytes) :
    ∃ m, populateMetric env.toMetricEnv name .guess (some mem) = some m := by
  simp only [populateMetric]
  obtain hs | ⟨t, r, hr, ht, -⟩ := guessType_cases env.strtod (cString mem)
  · simp [hs]
  · have hne : t ≠ .guess := by
      rcases ht with rfl | rfl | rfl <;> decide
    simp [hr, hne]

theorem recordGuess_agrees_iff
    (hname : buildTagExtendedName env.toMetricEnv (env.trackFiltered key) = some name)
    (htaken : env.taken name = false) {mem : Bytes} (hmem : (cString mem).length < 256) :
    (env.record key leaf .guess (some mem)).Agrees ↔
      (env.trackFiltered key).length < maxMetricTaggedName ∧ ReadsAsNumber env.strtod (cString mem) := by
  obtain ⟨m, hm⟩ := @populateMetric_guess env name mem
  rw [record_set hname htaken hm, and_congr_right_iff]
  intro hshort
  rw [← guessed_logged_iff hname hshort hmem, hm]

/-- A value is logged as it is set if it sets nothing, or if its name fits and the types agree. -/
theorem recordScalar_agrees_iff (env : TrapEnv) (key : Bytes) {leaf : Scalar} (hshort : leaf.Short) :
    (env.recordLeaf key leaf).Agrees ↔ env.Consistent key leaf := by
  by_cases hunset : env.Unset key
  · refine iff_of_true ?_ (.inl hunset)
    cases leaf <;> exact record_unset hunset
  obtain ⟨name, hname, htaken⟩ : ∃ name, buildTagExtendedName env.toMetricEnv
    (env.trackFiltered key) = some name ∧
      env.taken name = false := by
    unfold TrapEnv.Unset at hunset
    push Not at hunset
    simpa using hunset
  rw [TrapEnv.Consistent, or_iff_right hunset]
  cases leaf with
  | null =>
    have hm : populateMetric env.toMetricEnv name .int32 none = some ⟨name, .int32, none⟩ := rfl
    rw [TrapEnv.recordLeaf, TrapEnv.recordNull, record_set hname htaken hm, and_congr_right_iff]
    intro hshort
    rw [metricLocalAccrue_eq hname hshort]
    exact iff_of_true rfl trivial
  | boolean value =>
    -- The memory of the integer is read as a text, in which there is no number.
    have hnone : (coerceValue env.strtod .int32 (some (littleEndian 4 (if value then 1 else 0)))) =
      (.int32, none) := by
      cases value <;> rfl
    obtain ⟨m, hm, hvalue⟩ : ∃ m, populateMetric env.toMetricEnv name .int32
        (some (littleEndian 4 (if value then 1 else 0))) = some m ∧ m.metricValue ≠ none := by
      exact ⟨_, rfl, by simp⟩
    rw [TrapEnv.recordLeaf, TrapEnv.recordBoolean, record_set hname htaken hm]
    refine iff_of_false ?_ (fun h => h.2)
    rintro ⟨hshort, hlogged⟩
    rw [metricLocalAccrue_eq hname hshort, hnone] at hlogged
    exact hvalue (by rw [← Option.some.inj hlogged]; rfl)
  | number value =>
    have hlen : (cString (value.take 127 ++ [0])).length < 256 := by
      rw [cString_append_null]
      exact ((length_cString_le _).trans (List.length_take_le _ _)).trans_lt (by norm_num)
    rw [TrapEnv.recordLeaf, TrapEnv.recordNumber, recordGuess_agrees_iff hname htaken hlen,
      cString_append_null]
    rfl
  | string value =>
    have hlt : value.length < 256 := hshort
    have htake : value.take 4095 = value := List.take_of_length_le (by omega)
    have hlen : (cString (value.take 4095 ++ [0])).length < 256 := by
      rw [cString_append_null, htake]
      exact (length_cString_le value).trans_lt hlt
    rw [TrapEnv.recordLeaf, TrapEnv.recordString, recordGuess_agrees_iff hname htaken hlen,
      cString_append_null,
      htake]
    rfl

end

namespace RestJsonPayload

variable {env : TrapEnv} {json json' : RestJsonPayload}

theorem keep_recorded {leaf : Scalar} {r : Recording} (h : (json.keep env leaf).2 = some r) :
    ∃ key, r = env.recordLeaf key leaf := by
  unfold keep at h
  cases hkey : json.keys (json.level - 1) with
  | none => simp [hkey] at h
  | some key =>
    simp only [hkey] at h
    exact ⟨key, (Option.some.inj h).symm⟩

theorem step_leaf_cases {leaf : Scalar} {next : RestJsonPayload × Option Recording}
    (h : json.step env (.leaf leaf) = some next) :
    json.level ≠ 0 ∧ (json.lastSpecialKey = some .tags ∧ next = (json, none) ∨
      ∃ base, json.setArrayKey env = some base ∧ (base.lastSpecialKey ≠ none ∧ next = (base, none) ∨
        base.lastSpecialKey = none ∧ next = base.keep env leaf)) := by
  cases leaf with
  | null =>
    simp only [step, cbNull] at h
    split_ifs at h with hlevel
    obtain ⟨base, hset, hj⟩ := Option.bind_eq_some_iff.mp h
    split_ifs at hj with hspecial
    exact ⟨hlevel, Or.inr ⟨base, hset, Or.inr ⟨not_not.mp hspecial, (Option.some.inj hj).symm⟩⟩⟩
  | boolean value =>
    simp only [step, cbBoolean] at h
    split_ifs at h with hlevel
    obtain ⟨base, hset, hj⟩ := Option.bind_eq_some_iff.mp h
    split_ifs at hj with hspecial
    exact ⟨hlevel, Or.inr ⟨base, hset, Or.inr ⟨not_not.mp hspecial, (Option.some.inj hj).symm⟩⟩⟩
  | number value =>
    simp only [step, cbNumber] at h
    split_ifs at h with hlevel
    obtain ⟨base, hset, hj⟩ := Option.bind_eq_some_iff.mp h
    refine ⟨hlevel, Or.inr ⟨base, hset, ?_⟩⟩
    split at hj
    · next hs => exact Or.inl ⟨by simp [hs], (Option.some.inj hj).symm⟩
    · next hs => exact Or.inl ⟨by simp [hs], (Option.some.inj hj).symm⟩
    · simp at hj
    · next hs => exact Or.inr ⟨hs, (Option.some.inj hj).symm⟩
  | string value =>
    simp only [step, cbString] at h
    split_ifs at h with hlevel htags
    · exact ⟨hlevel, Or.inl ⟨htags, (Option.some.inj h).symm⟩⟩
    · obtain ⟨base, hset, hj⟩ := Option.bind_eq_some_iff.mp h
      refine ⟨hlevel, Or.inr ⟨base, hset, ?_⟩⟩
      split at hj
      · next hs => exact Or.inr ⟨hs, (Option.some.inj hj).symm⟩
      · next hs => exact Or.inl ⟨by simp [hs], (Option.some.inj hj).symm⟩

theorem step_recorded {e : JsonEvent} {r : Recording} (h : json.step env e = some (json', some r)) :
    ∃ key leaf, r = env.recordLeaf key leaf := by
  cases e with
  | leaf leaf =>
    rcases (step_leaf_cases h).2 with ⟨-, hnext⟩ | ⟨base, -, ⟨-, hnext⟩ | ⟨-, hnext⟩⟩
    · simp at hnext
    · simp at hnext
    · obtain ⟨key, hr⟩ := keep_recorded (congrArg Prod.snd hnext).symm
      exact ⟨key, leaf, hr⟩
  | startMap => simp [step] at h
  | mapKey key => simp [step] at h
  | endMap => simp [step] at h
  | startArray => simp [step] at h
  | endArray => simp [step] at h

theorem parse_recorded {es : List JsonEvent} {r : Recording} (h : r ∈ (json.parse env es).2) :
    ∃ key leaf, r = env.recordLeaf key leaf := by
  induction es generalizing json with
  | nil => exact absurd h List.not_mem_nil
  | cons e es ih =>
    unfold parse at h
    cases hstep : json.step env e with
    | none => simp [hstep] at h
    | some next =>
      obtain ⟨json', recorded⟩ := next
      simp only [hstep] at h
      rcases List.mem_append.mp h with h | h
      · exact step_recorded (by rw [hstep, Option.mem_toList.mp h])
      · exact ih h

theorem parse_append (es es' : List JsonEvent) {recorded : List Recording}
    (h : json.parse env es = (some json', recorded)) :
    json.parse env (es ++ es') = ((json'.parse env es').1, recorded ++ (json'.parse env es').2) := by
  induction es generalizing json recorded with
  | nil =>
    obtain ⟨h1, h2⟩ := Prod.mk.inj h
    obtain rfl := Option.some.inj h1
    rw [← h2]
    rfl
  | cons e es ih =>
    rw [parse] at h
    rw [List.cons_append, parse]
    cases hstep : json.step env e with
    | none => simp [hstep] at h
    | some next =>
      obtain ⟨next, r⟩ := next
      simp only [hstep] at h ⊢
      obtain ⟨h1, h2⟩ := Prod.mk.inj h
      have hrest := ih (Prod.ext h1 rfl)
      rw [hrest, ← h2, List.append_assoc]

end RestJsonPayload

end Reconnoiter
