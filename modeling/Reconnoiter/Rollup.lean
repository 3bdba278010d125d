import Reconnoiter.MetricValue

/-! `noit_metric_rollup_accumulate_numeric`: samples are folded into an average, and their
changes, from one sample to the next, into a derivative. -/

namespace Reconnoiter

inductive ValueType where
  | absent
  | guess
  | int32
  | uint32
  | int64
  | uint64
  | double
  | string
  | histogram
  | histogramCumulative
  deriving DecidableEq

/-- `noit_metric_value_t`, with the memory of its union. -/
structure RollupSample where
  whenceMs : UInt64
  type : ValueType
  isNull : Bool
  value : BitVec 64
  deriving DecidableEq

/-- The arithmetic of `double` and `float`. The conversions to integers give some memory for every double. -/
structure RollupDoubles (D F : Type) extends Doubles D where
  ofBits : BitVec 64 → D
  toBits : D → BitVec 64
  toUint64 : D → BitVec 64
  toInt64 : D → BitVec 64
  nan : D
  add : D → D → D
  sub : D → D → D
  mul : D → D → D
  div : D → D → D
  sqrt : D → D
  nonneg : D → Bool
  toFloat : D → F
  ofFloat : F → D
  mulFloat : F → F → F
  isnanf : F → Bool

structure NntMultitype (F : Type) where
  type : ValueType
  count : UInt16
  stddevPresent : Bool
  stddev : F
  value : BitVec 64
  derivative : F
  derivativeStddev : F
  counter : F
  counterStddev : F
  deriving DecidableEq

structure NumericRollupAccu (F : Type) where
  lastValue : RollupSample
  accumulated : NntMultitype F
  drun : Int
  crun : Int
  firstValueTimeMs : UInt64
  deriving DecidableEq

def ValueType.integer (t : ValueType) (value : BitVec 64) : Int :=
  match t with
  | .int32 => (value.setWidth 32).toInt
  | .uint32 => (value.setWidth 32).toNat
  | .int64 => value.toInt
  | _ => value.toNat

namespace RollupSample

def metricValueInt64 (v : RollupSample) : Option Int :=
  if v.isNull then none
  else
    match v.type with
    | .int32 | .uint32 | .int64 => some (v.type.integer v.value)
    | _ => none

def metricValueUint64 (v : RollupSample) : Option Nat :=
  if v.isNull then none
  else
    match v.type with
    | .int32 | .int64 => if 0 ≤ v.type.integer v.value then some (v.type.integer v.value).toNat else none
    | .uint32 | .uint64 => some (v.type.integer v.value).toNat
    | _ => none

def metricValueIsNegative (v : RollupSample) : Option Bool :=
  if v.isNull then none
  else
    match v.type with
    | .uint32 | .uint64 => some false
    | .int32 | .int64 => some (v.type.integer v.value < 0)
    | _ => none

def unknown (v : RollupSample) : Bool := v.type = .absent || v.isNull || v.type = .string

end RollupSample

inductive Difference where
  | nan
  | integer (z : Int)
  | doubleMath
  deriving DecidableEq

/-- No value stands for the end of the process. -/
def integerDifference (v1 v2 : RollupSample) : Option Difference :=
  if v1.type ≠ .uint64 ∧ v2.type ≠ .uint64 then
    v1.metricValueInt64.bind fun v1i => v2.metricValueInt64.map fun v2i =>
      let diff := (v2i - v1i).bmod (2 ^ 64)
      if v1i > v2i ∧ diff > 0 then .doubleMath
      else if v2i > v1i ∧ diff < 0 then .doubleMath
      else .integer diff
  else
    let bothPositive :=
      if v2.type = .uint64 ∧ v1.type = .uint64 then some true
      else v2.metricValueIsNegative.bind fun n2 =>
        if n2 then some false else v1.metricValueIsNegative.map fun n1 => !n1
    bothPositive.bind fun both =>
      if both then
        v1.metricValueUint64.bind fun v1u => v2.metricValueUint64.map fun v2u =>
          if v1u ≤ v2u then .integer (v2u - v1u : Nat)
          else
            let diffi := (-((v1u - v2u : Nat) : Int)).bmod (2 ^ 64)
            if diffi > 0 then .doubleMath else .integer diffi
      else some .doubleMath

def difference (v1 v2 : RollupSample) : Option Difference :=
  if v1.unknown || v2.unknown then some .nan
  else if v1.type = .double ∨ v2.type = .double then some .doubleMath
  else integerDifference v1 v2

section

variable {D F : Type} (d : RollupDoubles D F)

def RollupDoubles.read (t : ValueType) (value : BitVec 64) : D :=
  match t with
  | .double => d.ofBits value
  | .int32 | .uint32 | .int64 | .uint64 => d.ofInt (t.integer value)
  | _ => d.ofInt 0

def RollupSample.metricValueDouble (v : RollupSample) : Option D :=
  if v.isNull then none
  else
    match v.type with
    | .int32 | .uint32 | .int64 | .uint64 | .double => some (d.read v.type v.value)
    | _ => none

def calculateChange (v1 v2 : RollupSample) : Option (D × Int) :=
  let dt := ((v2.whenceMs - v1.whenceMs).toNat : Int).bmod (2 ^ 32)
  (difference v1 v2).bind fun
    | .nan => some (d.nan, dt)
    | .integer z => some (d.ofInt z, dt)
    | .doubleMath => (v2.metricValueDouble d).bind fun y2 => (v1.metricValueDouble d).map fun y1 =>
        (d.sub y2 y1, dt)

def RollupDoubles.weighted (a : D) (aCount : Int) (v : D) (vCount : Int) : D :=
  d.div (d.add (d.mul (d.ofInt aCount) a) (d.mul (d.ofInt vCount) v)) (d.ofInt (aCount + vCount))

def RollupDoubles.combined (aStddev : F) (aAvg : D) (aCount : Int) (vStddev : F) (vAvg : D) (vCount : Int)
    (avgSquare : D) : F :=
  let square (s : F) (m : D) := d.add (d.ofFloat (d.mulFloat s s)) (d.mul m m)
  d.toFloat (d.sqrt (d.sub (d.weighted (square aStddev aAvg) aCount (square vStddev vAvg) vCount) avgSquare))

def RollupDoubles.accumRate (aRate aStddev : F) (aRun : Int) (vRate vStddev : F) (vRun : Int) : F × F :=
  if aRun + vRun = 0 then (aRate, aStddev)
  else
    let rate :=
      if d.isnanf aRate || aRun = 0 then vRate
      else if d.isnanf vRate then aRate
      else
        let sum := d.toFloat (d.add (d.mul (d.ofInt aRun) (d.ofFloat aRate))
          (d.mul (d.ofInt vRun) (d.ofFloat vRate)))
        d.toFloat (d.div (d.ofFloat sum) (d.ofInt (aRun + vRun)))
    (rate,
      if d.isnanf aStddev || aRun = 0 then vStddev
      else if d.isnanf vStddev then aStddev
      else d.combined aStddev (d.ofFloat aRate) aRun vStddev (d.ofFloat vRate) vRun
        (d.ofFloat (d.mulFloat rate rate)))

def nntMultitypeAccumCounts (a : NntMultitype F) (aCount aDrun aCrun : Int) (v : NntMultitype F)
    (vCount vDrun vCrun : Int) : NntMultitype F :=
  let avgL := d.read a.type a.value
  let avgR := d.read v.type v.value
  let a' :=
    if aCount + vCount = 0 then a
    else
      let avg := d.weighted avgL aCount avgR vCount
      let set :=
        if d.eq avg (d.ofInt (d.toUint64 avg).toNat) then { a with type := .uint64, value := d.toUint64 avg }
        else if d.eq avg (d.ofInt (d.toInt64 avg).toInt) then
          { a with type := .int64, value := d.toInt64 avg }
        else { a with type := .double, value := d.toBits avg }
      if a.stddevPresent || v.stddevPresent then
        let stddev := if a.stddevPresent then a.stddev else d.toFloat (d.ofInt 0)
        { set with
          stddevPresent := true
          stddev := if v.stddevPresent then d.combined stddev avgL aCount v.stddev avgR vCount
            (d.mul avg avg) else stddev }
      else set
  let derivative := d.accumRate a.derivative a.derivativeStddev aDrun v.derivative v.derivativeStddev vDrun
  let counter := d.accumRate a.counter a.counterStddev aCrun v.counter v.counterStddev vCrun
  { a' with
    derivative := derivative.1
    derivativeStddev := derivative.2
    counter := counter.1
    counterStddev := counter.2 }

namespace NumericRollupAccu

def accumulateNext (accu : NumericRollupAccu F) (value : RollupSample) (dy : D) (drun : Int) :
    NumericRollupAccu F :=
  let zero := d.toFloat (d.ofInt 0)
  let derivative := if 0 < drun then d.div (d.mul (d.ofInt 1000) dy) (d.ofInt drun) else d.nan
  let crun := if d.nonneg derivative then drun else 0
  let current : NntMultitype F :=
    ⟨value.type, 1, true, zero, value.value, d.toFloat derivative, zero,
      d.toFloat (if d.nonneg derivative then derivative else d.nan), zero⟩
  let w1 := nntMultitypeAccumCounts d accu.accumulated accu.accumulated.count.toNat
    accu.drun accu.crun current 1 drun crun
  { accu with
    accumulated := { w1 with count := w1.count + 1 }
    drun := (accu.drun + drun).bmod (2 ^ 32)
    crun := (accu.crun + crun).bmod (2 ^ 32) }

def accumulateFirst (accu : NumericRollupAccu F) (value : RollupSample) : Option (NumericRollupAccu F) :=
  let w1 := { accu.accumulated with type := value.type, count := 0 }
  let accu := { accu with accumulated := w1, firstValueTimeMs := value.whenceMs }
  if value.isNull then some accu
  else
    match value.type with
    | .absent => some accu
    | .string => none
    | _ => some { accu with accumulated := { w1 with count := 1, value := value.value } }

/-- `noit_metric_rollup_accumulate_numeric`: the last value is replaced before anything is looked at. -/
def accumulateNumeric (accu : NumericRollupAccu F) (value : RollupSample) : Option (NumericRollupAccu F) :=
  let last := accu.lastValue
  let accu := { accu with lastValue := value }
  if value.whenceMs ≤ accu.firstValueTimeMs then some accu
  else if last.type ≠ .absent then
    if value.type = .absent ∧ value.isNull then some accu
    else (calculateChange d last value).map fun change => accu.accumulateNext d value change.1 change.2
  else accu.accumulateFirst value

def accumulateAll (accu : NumericRollupAccu F) (samples : List RollupSample) : Option (NumericRollupAccu F) :=
  samples.foldlM (accumulateNumeric d) accu

def fresh : NumericRollupAccu F :=
  let zero := d.toFloat (d.ofInt 0)
  ⟨⟨0, .absent, false, 0⟩, ⟨.absent, 0, false, zero, 0, zero, zero, zero, zero⟩, 0, 0, 0⟩

end NumericRollupAccu

end

theorem ValueType.integer_bounds {t : ValueType} (value : BitVec 64) (ht : t ≠ .uint64)
    (hint : t = .int32 ∨ t = .uint32 ∨ t = .int64) :
    -2 ^ 63 ≤ t.integer value ∧ t.integer value < 2 ^ 63 := by
  rcases hint with rfl | rfl | rfl
  · have hlow := (value.setWidth 32).le_toInt
    have hhigh := (value.setWidth 32).toInt_lt
    simp only [ValueType.integer]
    omega
  · have hlt := (value.setWidth 32).isLt
    simp only [ValueType.integer]
    omega
  · have hlow := value.le_toInt
    have hhigh := value.toInt_lt
    simp only [ValueType.integer]
    omega

namespace RollupSample

variable {v : RollupSample}

def number (v : RollupSample) : Int := v.type.integer v.value

theorem metricValueInt64_spec {n : Int} (h : v.metricValueInt64 = some n) :
    n = v.number ∧ -2 ^ 63 ≤ v.number ∧ v.number < 2 ^ 63 := by
  obtain ⟨-, h⟩ := Option.ite_none_left_eq_some.mp h
  cases ht : v.type with
  | int32 | uint32 | int64 =>
    rw [ht] at h
    obtain rfl := Option.some.inj h
    rw [number, ht]
    exact ⟨rfl, ValueType.integer_bounds v.value (by simp) (by simp)⟩
  | absent | guess | uint64 | double | string | histogram | histogramCumulative =>
    rw [ht] at h
    cases h

theorem metricValueUint64_spec {n : Nat} (h : v.metricValueUint64 = some n) : n = v.number ∧ n < 2 ^ 64 := by
  obtain ⟨-, h⟩ := Option.ite_none_left_eq_some.mp h
  cases ht : v.type with
  | int32 | int64 =>
    rw [ht] at h
    obtain ⟨hpos, hn⟩ := Option.ite_none_right_eq_some.mp h
    have hlt := (@ValueType.integer_bounds v.type v.value (by simp [ht]) (by simp [ht])).2
    rw [ht] at hlt
    obtain rfl := Option.some.inj hn
    rw [number, ht]
    omega
  | uint32 =>
    rw [ht] at h
    obtain rfl := Option.some.inj h
    have hlt := (v.value.setWidth 32).isLt
    rw [number, ht]
    simp only [ValueType.integer]
    omega
  | uint64 =>
    rw [ht] at h
    obtain rfl := Option.some.inj h
    have hlt := v.value.isLt
    rw [number, ht]
    simp only [ValueType.integer]
    omega
  | absent | guess | double | string | histogram | histogramCumulative =>
    rw [ht] at h
    cases h

end RollupSample

theorem bmod_sub_eq {a b : Int} (ha : -2 ^ 63 ≤ a ∧ a < 2 ^ 63) (hb : -2 ^ 63 ≤ b ∧ b < 2 ^ 63)
    (hdown : ¬(a > b ∧ (b - a).bmod (2 ^ 64) > 0)) (hup : ¬(b > a ∧ (b - a).bmod (2 ^ 64) < 0)) :
    (b - a).bmod (2 ^ 64) = b - a := by
  rw [Int.bmod_def] at hdown hup ⊢
  split_ifs at hdown hup ⊢ <;> omega

theorem bmod_neg_eq {a b : Nat} (ha : a < 2 ^ 64) (hlt : b < a)
    (h : ¬(-((a - b : Nat) : Int)).bmod (2 ^ 64) > 0) :
    (-((a - b : Nat) : Int)).bmod (2 ^ 64) = (b : Int) - a := by
  rw [Int.bmod_def] at h ⊢
  split_ifs at h ⊢ <;> omega

theorem integerDifference_exact {v1 v2 : RollupSample} {z : Int}
    (h : integerDifference v1 v2 = some (.integer z)) : z = v2.number - v1.number := by
  rw [integerDifference] at h
  by_cases hsigned : v1.type ≠ .uint64 ∧ v2.type ≠ .uint64
  · rw [if_pos hsigned] at h
    obtain ⟨v1i, h1, h⟩ := Option.bind_eq_some_iff.mp h
    obtain ⟨v2i, h2, h⟩ := Option.map_eq_some_iff.mp h
    obtain ⟨rfl, hb1⟩ := RollupSample.metricValueInt64_spec h1
    obtain ⟨rfl, hb2⟩ := RollupSample.metricValueInt64_spec h2
    dsimp only at h
    split_ifs at h with hdown hup
    obtain rfl := Difference.integer.inj h
    exact bmod_sub_eq hb1 hb2 hdown hup
  · rw [if_neg hsigned] at h
    obtain ⟨both, -, h⟩ := Option.bind_eq_some_iff.mp h
    cases both with
    | false => cases h
    | true =>
    obtain ⟨v1u, h1, h⟩ := Option.bind_eq_some_iff.mp h
    obtain ⟨v2u, h2, h⟩ := Option.map_eq_some_iff.mp h
    obtain ⟨hn1, hlt1⟩ := RollupSample.metricValueUint64_spec h1
    obtain ⟨hn2, hlt2⟩ := RollupSample.metricValueUint64_spec h2
    rw [← hn1, ← hn2]
    dsimp only at h
    split_ifs at h with hle hrolled
    · obtain rfl := Difference.integer.inj h
      omega
    · obtain rfl := Difference.integer.inj h
      exact bmod_neg_eq hlt1 (Nat.lt_of_not_le hle) hrolled

/-- The integer paths of `calculate_change` give the exact difference. -/
theorem integer_change_exact {v1 v2 : RollupSample} {z : Int} (h : difference v1 v2 = some (.integer z)) :
    z = v2.number - v1.number := by
  rw [difference] at h
  split_ifs at h
  · cases h
  · cases h
  · exact integerDifference_exact h

theorem integer_change_halved :
    difference ⟨1, .uint64, false, 2 ^ 64 - 1⟩ ⟨2, .int32, false, 2 ^ 32 - 1⟩ = some .doubleMath ∧
    (-2 ^ 63 : Int) = (⟨2, .uint64, false, 2 ^ 63 - 1⟩ : RollupSample).number -
      (⟨1, .uint64, false, 2 ^ 64 - 1⟩ : RollupSample).number :=
  ⟨by decide, integer_change_exact (by decide)⟩

namespace RollupSample

variable {v v1 v2 : RollupSample}

def integral (v : RollupSample) : Bool :=
  match v.type with
  | .int32 | .uint32 | .int64 | .uint64 => true
  | _ => false

def numeric (v : RollupSample) : Bool := !v.isNull && (v.integral || v.type = .double)

def gap (v : RollupSample) : Bool := v.type = .absent && v.isNull

theorem metricValueInt64_of (hn : v.isNull = false) (hv : v.integral = true) (ht : v.type ≠ .uint64) :
    v.metricValueInt64 = some v.number := by
  rw [metricValueInt64, if_neg (by simp [hn]), number]
  rw [integral] at hv
  cases htype : v.type <;> simp_all

theorem metricValueIsNegative_of (hn : v.isNull = false) (hv : v.integral = true) :
    v.metricValueIsNegative = some (decide (v.number < 0)) := by
  rw [metricValueIsNegative, if_neg (by simp [hn]), number]
  rw [integral] at hv
  cases htype : v.type with
  | int32 | int64 => rfl
  | uint32 | uint64 => exact congrArg some (decide_eq_false (not_lt.mpr (Int.natCast_nonneg _))).symm
  | absent | guess | double | string | histogram | histogramCumulative => simp [htype] at hv

theorem metricValueUint64_of (hn : v.isNull = false) (hv : v.integral = true) (hpos : 0 ≤ v.number) :
    v.metricValueUint64 = some v.number.toNat := by
  rw [metricValueUint64, if_neg (by simp [hn]), number]
  rw [integral] at hv
  rw [number] at hpos
  cases htype : v.type <;> simp_all

theorem number_uint64 (h : v.type = .uint64) : 0 ≤ v.number := by
  rw [number, h]
  exact Int.natCast_nonneg _

theorem integerDifference_isSome (hn1 : v1.isNull = false) (hv1 : v1.integral = true)
    (hn2 : v2.isNull = false) (hv2 : v2.integral = true) : (integerDifference v1 v2).isSome = true := by
  rw [integerDifference]
  by_cases hsigned : v1.type ≠ .uint64 ∧ v2.type ≠ .uint64
  · rw [if_pos hsigned, metricValueInt64_of hn1 hv1 hsigned.1, metricValueInt64_of hn2 hv2 hsigned.2]
    rfl
  rw [if_neg hsigned, metricValueIsNegative_of hn1 hv1, metricValueIsNegative_of hn2 hv2]
  by_cases hpos : 0 ≤ v1.number ∧ 0 ≤ v2.number
  · rw [metricValueUint64_of hn1 hv1 hpos.1, metricValueUint64_of hn2 hv2 hpos.2]
    simp [not_lt.mpr hpos.1, not_lt.mpr hpos.2]
  · have hboth : ¬(v2.type = .uint64 ∧ v1.type = .uint64) :=
      fun h => hpos ⟨number_uint64 h.2, number_uint64 h.1⟩
    rw [not_and_or, not_le, not_le] at hpos
    rw [if_neg hboth]
    by_cases h2 : v2.number < 0
    · simp [h2]
    · simp [h2, hpos.resolve_right h2]

theorem calculateChange_of_numeric {D F : Type} (d : RollupDoubles D F) (h1 : v1.numeric = true)
    (h2 : v2.numeric = true) : ∃ change, calculateChange d v1 v2 = some change := by
  have hdouble : ∀ v : RollupSample, v.numeric = true → ∃ y, v.metricValueDouble d = some y := by
    intro v hv
    rw [numeric, integral] at hv
    rw [metricValueDouble]
    cases htype : v.type <;> simp_all
  have hknown : ∀ v : RollupSample, v.numeric = true → v.unknown = false := by
    intro v hv
    rw [numeric, integral] at hv
    rw [unknown]
    cases htype : v.type <;> simp_all
  have hdiff : (difference v1 v2).isSome = true := by
    rw [difference, hknown v1 h1, hknown v2 h2]
    simp only [numeric, Bool.and_eq_true, Bool.not_eq_true', Bool.or_eq_true, decide_eq_true_iff] at h1 h2
    rw [Bool.or_self, if_neg Bool.false_ne_true]
    split_ifs with htypes
    · rfl
    · rw [not_or] at htypes
      exact integerDifference_isSome h1.1 (h1.2.resolve_right htypes.1) h2.1 (h2.2.resolve_right htypes.2)
  obtain ⟨y1, hy1⟩ := hdouble v1 h1
  obtain ⟨y2, hy2⟩ := hdouble v2 h2
  obtain ⟨x, hx⟩ := Option.isSome_iff_exists.mp hdiff
  rw [calculateChange, hx]
  cases x with
  | nan => exact ⟨_, rfl⟩
  | integer z => exact ⟨_, rfl⟩
  | doubleMath =>
    simp only [Option.bind_some, hy1, hy2, Option.map_some]
    exact ⟨_, rfl⟩

end RollupSample

end Reconnoiter
