import Reconnoiter.Rollup

/-! Runs of the rollup: what its count comes to, and what a sample older than the window leaves behind. -/

namespace Reconnoiter

def Unbroken (samples : List RollupSample) : Prop :=
  ∃ before block after, samples = before ++ (block ++ after) ∧ (∀ v ∈ before, v.numeric = false) ∧
    (∀ v ∈ block, v.numeric = true) ∧ (∀ v ∈ after, v.numeric = false) ∧
      after.length ≤ 1 ∧ block.length < 2 ^ 16

def tallyStep (s : Bool × UInt16) (v : RollupSample) : Bool × UInt16 :=
  if v.numeric then (false, if s.1 then 1 else s.2 + 1) else (true, if s.1 then 0 else s.2)

section

variable {samples before block after : List RollupSample} {v : RollupSample} {c : UInt16} {b : Bool}

theorem tallyStep_numeric (h : v.numeric = true) : tallyStep (b, c) v = (false, if b then 1 else c + 1) := by
  rw [tallyStep, if_pos h]

theorem tallyStep_gap (h : v.numeric = false) : tallyStep (b, c) v = (true, if b then 0 else c) := by
  rw [tallyStep, h]
  rfl

theorem tally_before (h : ∀ v ∈ before, v.numeric = false) :
    before.foldl tallyStep (true, 0) = (true, 0) := by
  induction before with
  | nil => rfl
  | cons v before ih =>
    rw [List.forall_mem_cons] at h
    rw [List.foldl_cons, tallyStep_gap h.1]
    exact ih h.2

theorem tally_block (h : ∀ v ∈ block, v.numeric = true) :
    block.foldl tallyStep (false, c) = (false, c + UInt16.ofNat block.length) := by
  induction block generalizing c with
  | nil => simp
  | cons v block ih =>
    rw [List.forall_mem_cons] at h
    rw [List.foldl_cons, tallyStep_numeric h.1, if_neg Bool.false_ne_true, ih h.2,
      List.length_cons, UInt16.ofNat_add,
      add_comm (UInt16.ofNat _), ← add_assoc]
    rfl

theorem tally_window (h : ∀ v ∈ block, v.numeric = true) (hne : block ≠ []) :
    block.foldl tallyStep (true, c) = (false, UInt16.ofNat block.length) := by
  obtain ⟨v, block, rfl⟩ := List.exists_cons_of_ne_nil hne
  rw [List.forall_mem_cons] at h
  rw [List.foldl_cons, tallyStep_numeric h.1, if_pos rfl, tally_block h.2,
    List.length_cons, UInt16.ofNat_add, add_comm]
  rfl

theorem tally_behind {total : Nat} (h : c.toNat < total) :
    (samples.foldl tallyStep (b, c)).2.toNat < total + samples.countP RollupSample.numeric := by
  induction samples generalizing b c total with
  | nil => exact h
  | cons v samples ih =>
    rw [List.foldl_cons, List.countP_cons]
    by_cases hv : v.numeric = true
    · rw [tallyStep_numeric hv, if_pos hv, Nat.add_comm _ 1, ← Nat.add_assoc]
      apply ih
      cases b with
      | true => exact Nat.succ_lt_succ (Nat.zero_lt_of_lt h)
      | false =>
        rw [if_neg Bool.false_ne_true, UInt16.toNat_add]
        exact (Nat.mod_le _ _).trans_lt (Nat.succ_lt_succ h)
    · rw [tallyStep_gap (Bool.eq_false_iff.mpr hv), if_neg hv, Nat.add_zero]
      apply ih
      cases b with
      | true => exact Nat.zero_lt_of_lt h
      | false => exact h

theorem countP_gaps (h : ∀ v ∈ after, v.numeric = false) : after.countP RollupSample.numeric = 0 :=
  List.countP_eq_zero.mpr fun v hv => by simp [h v hv]

theorem tally_of_unbroken (h : Unbroken samples) :
    (samples.foldl tallyStep (true, 0)).2.toNat = samples.countP RollupSample.numeric := by
  obtain ⟨before, block, after, rfl, hbefore, hblock, hafter, hlen, hlt⟩ := h
  rw [List.foldl_append, List.foldl_append, tally_before hbefore, List.countP_append, List.countP_append,
    countP_gaps hbefore, countP_gaps hafter, List.countP_eq_length.mpr hblock, Nat.zero_add, Nat.add_zero]
  by_cases hnil : block = []
  · rw [hnil, List.foldl_nil, tally_before hafter]
    rfl
  · rw [tally_window hblock hnil]
    have hcount : (UInt16.ofNat block.length).toNat = block.length := UInt16.toNat_ofNat_of_lt' hlt
    rcases after with _ | ⟨v, _ | ⟨w, after⟩⟩
    · exact hcount
    · rw [List.foldl_cons, tallyStep_gap (hafter v List.mem_cons_self)]
      exact hcount
    · simp at hlen

theorem exists_run {α : Type} (p : α → Bool) (l : List α) :
    ∃ run rest, l = run ++ rest ∧ (∀ x ∈ run, p x = true) ∧
    (rest = [] ∨ ∃ x more, rest = x :: more ∧ p x = false) := by
  induction l with
  | nil => exact ⟨[], [], rfl, by simp, .inl rfl⟩
  | cons x l ih =>
    by_cases hx : p x = true
    · obtain ⟨run, rest, rfl, hrun, hrest⟩ := ih
      exact ⟨x :: run, rest, rfl, by simpa [hx] using hrun, hrest⟩
    · exact ⟨[], x :: l, rfl, by simp, .inr ⟨x, l, rfl, Bool.eq_false_iff.mpr hx⟩⟩

theorem unbroken_of_tally (h : (samples.foldl tallyStep (true, 0)).2.toNat =
    samples.countP RollupSample.numeric) :
    Unbroken samples := by
  obtain ⟨before, rest, rfl, hbefore, hrest⟩ := exists_run (fun v => !RollupSample.numeric v) samples
  simp only [Bool.not_eq_true', Bool.not_eq_false'] at hbefore hrest
  obtain ⟨block, after, rfl, hblock, hafter⟩ := exists_run RollupSample.numeric rest
  rw [List.foldl_append, List.foldl_append, tally_before hbefore, List.countP_append, List.countP_append,
    countP_gaps hbefore, List.countP_eq_length.mpr hblock, Nat.zero_add] at h
  by_cases hnil : block = []
  · subst hnil
    obtain rfl : after = [] := by
      rcases hafter with hafter | ⟨x, more, rfl, hx⟩
      · exact hafter
      · rcases hrest with hrest | ⟨y, l, hrest, hy⟩
        · cases hrest
        · obtain ⟨rfl, rfl⟩ := List.cons.inj hrest
          exact absurd hy (by simp [hx])
    exact ⟨before, [], [], rfl, hbefore, hblock, by simp, by simp, by simp⟩
  have hlen : 0 < block.length := List.length_pos_iff.mpr hnil
  have hmod : (UInt16.ofNat block.length).toNat < 2 ^ 16 := (UInt16.ofNat block.length).toNat_lt
  rw [tally_window hblock hnil] at h
  rcases hafter with rfl | ⟨x, more, rfl, hx⟩
  · refine ⟨before, block, [], rfl, hbefore, hblock, by simp, by simp, ?_⟩
    rw [List.foldl_nil, List.countP_nil, Nat.add_zero] at h
    exact h ▸ hmod
  rw [List.foldl_cons, tallyStep_gap hx, if_neg Bool.false_ne_true, List.countP_cons, if_neg (by simp [hx]),
    Nat.add_zero] at h
  cases more with
  | nil =>
    refine ⟨before, block, [x], rfl, hbefore, hblock, by simpa using hx, by simp, ?_⟩
    rw [List.foldl_nil, List.countP_nil, Nat.add_zero] at h
    exact h ▸ hmod
  | cons y more =>
    -- whatever comes now starts another window
    refine absurd h (Nat.ne_of_lt ?_)
    rw [List.foldl_cons, List.countP_cons]
    by_cases hy : y.numeric = true
    · rw [tallyStep_numeric hy, if_pos hy, Nat.add_comm _ 1, ← Nat.add_assoc]
      exact tally_behind (Nat.succ_lt_succ hlen)
    · rw [tallyStep_gap (Bool.eq_false_iff.mpr hy), if_neg hy, Nat.add_zero]
      exact tally_behind hlen

end

theorem RollupSample.type_of_numeric {v : RollupSample} (h : v.numeric = true) : v.type ≠ .absent := by
  rintro ht
  simp [numeric, integral, ht] at h

namespace NumericRollupAccu

variable {D F : Type} {d : RollupDoubles D F} {accu : NumericRollupAccu F} {v : RollupSample}

theorem count_accumCounts (a v : NntMultitype F) (aCount aDrun aCrun vCount vDrun vCrun : Int) :
    (nntMultitypeAccumCounts d a aCount aDrun aCrun v vCount vDrun vCrun).count = a.count := by
  simp only [nntMultitypeAccumCounts]
  split_ifs <;> rfl

theorem accumulateNumeric_newer (h : accu.firstValueTimeMs < v.whenceMs) : accu.accumulateNumeric d v =
    if accu.lastValue.type ≠ .absent then
      if v.type = .absent ∧ v.isNull then some { accu with lastValue := v }
      else (calculateChange d accu.lastValue v).map fun change =>
        accumulateNext d { accu with lastValue := v } v change.1 change.2
    else accumulateFirst { accu with lastValue := v } v := by
  rw [accumulateNumeric]
  exact if_neg (UInt64.not_le.mpr h)

theorem accumulateFirst_numeric (hv : v.numeric = true) : ∃ accu', accumulateFirst accu v = some accu' ∧
    accu'.firstValueTimeMs = v.whenceMs ∧ accu'.lastValue = accu.lastValue ∧ accu'.accumulated.count = 1 := by
  simp only [RollupSample.numeric, Bool.and_eq_true, Bool.not_eq_true'] at hv
  rw [accumulateFirst, if_neg (by simp [hv.1])]
  cases ht : v.type with
  | absent | guess | string | histogram | histogramCumulative => simp [RollupSample.integral, ht] at hv
  | int32 | uint32 | int64 | uint64 | double => exact ⟨_, rfl, rfl, rfl, rfl⟩

theorem accumulateNumeric_tally (hnewer : accu.firstValueTimeMs < v.whenceMs)
    (hlast : accu.lastValue.numeric = true ∨ accu.lastValue.type = .absent)
    (hv : v.numeric = true ∨ v.gap = true) :
    ∃ accu', accu.accumulateNumeric d v = some accu' ∧ accu'.firstValueTimeMs ≤
      v.whenceMs ∧ accu'.lastValue = v ∧
      (decide (v.type = .absent), accu'.accumulated.count) =
        tallyStep (decide (accu.lastValue.type = .absent), accu.accumulated.count) v := by
  rw [accumulateNumeric_newer hnewer]
  rcases hv with hv | hv
  · have ht := RollupSample.type_of_numeric hv
    rw [tallyStep_numeric hv, decide_eq_false ht]
    rcases hlast with hlast | hlast
    · have htl := RollupSample.type_of_numeric hlast
      obtain ⟨change, hchange⟩ := RollupSample.calculateChange_of_numeric d hlast hv
      rw [if_pos htl, if_neg (fun h => ht h.1), hchange, decide_eq_false htl]
      refine ⟨_, rfl, UInt64.le_of_lt hnewer, rfl, Prod.ext rfl ?_⟩
      show (nntMultitypeAccumCounts d _ _ _ _ _ _ _ _).count + 1 = _
      rw [count_accumCounts]
      rfl
    · obtain ⟨accu', hfirst, htime, hvalue, hcount⟩ :=
        @accumulateFirst_numeric F { accu with lastValue := v } v hv
      rw [if_neg (not_not.mpr hlast), decide_eq_true hlast]
      exact ⟨accu', hfirst, htime ▸ UInt64.le_refl _, hvalue, Prod.ext rfl hcount⟩
  · simp only [RollupSample.gap, Bool.and_eq_true, decide_eq_true_iff] at hv
    have hn : v.numeric = false := by simp [RollupSample.numeric, hv.2]
    rw [tallyStep_gap hn, decide_eq_true hv.1]
    by_cases hlast : accu.lastValue.type = .absent
    · rw [if_neg (not_not.mpr hlast), decide_eq_true hlast, accumulateFirst, if_pos hv.2]
      exact ⟨_, rfl, UInt64.le_refl _, rfl, rfl⟩
    · rw [if_pos hlast, if_pos hv, decide_eq_false hlast]
      exact ⟨_, rfl, UInt64.le_of_lt hnewer, rfl, rfl⟩

theorem accumulateAll_tally {samples : List RollupSample}
    (hlast : accu.lastValue.numeric = true ∨ accu.lastValue.type = .absent)
    (hincr : (accu.firstValueTimeMs :: samples.map RollupSample.whenceMs).Pairwise (· < ·))
    (hkinds : ∀ v ∈ samples, v.numeric = true ∨ v.gap = true) :
    ∃ accu', accu.accumulateAll d samples = some accu' ∧ accu'.accumulated.count =
      (samples.foldl tallyStep (decide (accu.lastValue.type = .absent), accu.accumulated.count)).2 := by
  induction samples generalizing accu with
  | nil => exact ⟨accu, rfl, rfl⟩
  | cons v samples ih =>
    rw [List.forall_mem_cons] at hkinds
    rw [List.map_cons, List.pairwise_cons, List.pairwise_cons] at hincr
    obtain ⟨next, hstep, htime, hvalue, htally⟩ :=
      accumulateNumeric_tally (d := d) (hincr.1 _ List.mem_cons_self) hlast hkinds.1
    obtain ⟨accu', hrun, hcount⟩ := @ih next
      (by rw [hvalue]; exact hkinds.1.imp_right fun h => by simp_all [RollupSample.gap])
      (List.pairwise_cons.mpr ⟨fun t ht => UInt64.lt_of_le_of_lt htime (hincr.2.1 t ht), hincr.2.2⟩) hkinds.2
    refine ⟨accu', ?_, ?_⟩
    · rw [accumulateAll, List.foldlM_cons, hstep]
      exact hrun
    · rw [hcount, hvalue, List.foldl_cons, ← htally]

/-- Of samples in the order of their times, fed to a fresh accumulator, the numbers are counted exactly when
they are unbroken. -/
theorem rollup_count_iff (d : RollupDoubles D F) (samples : List RollupSample)
    (hincr : (0 :: samples.map RollupSample.whenceMs).Pairwise (· < ·))
    (hkinds : ∀ v ∈ samples, v.numeric = true ∨ v.gap = true) :
    ((fresh d).accumulateAll d samples).map (·.accumulated.count.toNat) =
      some (samples.countP RollupSample.numeric) ↔ Unbroken samples := by
  obtain ⟨accu, hrun, hcount⟩ := @accumulateAll_tally D F d (fresh d) samples (.inr rfl) hincr hkinds
  rw [hrun, Option.map_some, Option.some_inj, hcount]
  exact ⟨unbroken_of_tally, tally_of_unbroken⟩

end NumericRollupAccu

def wholeDoubles : RollupDoubles Int Int where
  ofInt z := z
  ofBits := BitVec.toInt
  toBits := BitVec.ofInt 64
  toUint64 := BitVec.ofInt 64
  toInt64 := BitVec.ofInt 64
  nan := 0
  add := (· + ·)
  sub := (· - ·)
  mul := (· * ·)
  div := Int.tdiv
  sqrt z := z.toNat.sqrt
  eq := (· == ·)
  nonneg z := 0 ≤ z
  toFloat z := z
  ofFloat z := z
  mulFloat := (· * ·)
  isnanf _ := false

def int32Sample (whenceMs : UInt64) (n : BitVec 64) : RollupSample := ⟨whenceMs, .int32, false, n⟩

def absentSample (whenceMs : UInt64) : RollupSample := ⟨whenceMs, .absent, true, 0⟩

theorem rollup_count_two :
    (∀ v ∈ [int32Sample 1000 5, int32Sample 2000 7, absentSample 3000], v.numeric = true ∨ v.gap = true) ∧
    ((NumericRollupAccu.fresh wholeDoubles).accumulateAll wholeDoubles
      [int32Sample 1000 5, int32Sample 2000 7, absentSample 3000]).map (·.accumulated.count.toNat) =
        some 2 := by
  refine ⟨by decide, (NumericRollupAccu.rollup_count_iff wholeDoubles _ (by decide) (by decide)).mpr ?_⟩
  exact ⟨[], [int32Sample 1000 5, int32Sample 2000 7], [absentSample 3000],
    rfl, by decide, by decide, by decide, by decide,
    by decide⟩

theorem rollup_count_restarts :
    ((NumericRollupAccu.fresh wholeDoubles).accumulateAll wholeDoubles
      [int32Sample 1000 5, absentSample 2000, int32Sample 3000 7]).map (·.accumulated.count.toNat) = some 1 ∧
    [int32Sample 1000 5, absentSample 2000, int32Sample 3000 7].countP RollupSample.numeric = 2 := by
  decide

/-- What the change to a newer sample depends on, the time apart. -/
inductive Reading where
  | unknown
  | noNumber
  | integer (z : Int)
  | unsigned (n : Nat)
  | double (b : BitVec 64)
deriving DecidableEq

def RollupSample.reading (v : RollupSample) : Reading :=
  if v.isNull then .unknown
  else
    match v.type with
    | .absent | .string => .unknown
    | .int32 | .uint32 | .int64 => .integer (v.type.integer v.value)
    | .uint64 => .unsigned v.value.toNat
    | .double => .double v.value
    | .guess | .histogram | .histogramCumulative => .noNumber

/-- Both are absent, or neither is and they agree in their readings and, up to the width of an int, in
their times. -/
def SameLast (v last : RollupSample) : Prop :=
  v.type = .absent ∧ last.type = .absent ∨ v.type ≠ .absent ∧ last.type ≠ .absent ∧
    v.whenceMs.toNat % 2 ^ 32 = last.whenceMs.toNat % 2 ^ 32 ∧ v.reading = last.reading

namespace Reading

def int64 : Reading → Option Int
  | integer z => some z
  | _ => none

def uint64 : Reading → Option Nat
  | integer z => if 0 ≤ z then some z.toNat else none
  | unsigned n => some n
  | _ => none

def isNegative : Reading → Option Bool
  | integer z => some (z < 0)
  | unsigned _ => some false
  | _ => none

def toDouble {D F : Type} (d : RollupDoubles D F) : Reading → Option D
  | integer z => some (d.ofInt z)
  | unsigned n => some (d.ofInt n)
  | double b => some (d.ofBits b)
  | _ => none

def isDouble : Reading → Bool
  | double _ => true
  | _ => false

def isUnsigned : Reading → Bool
  | unsigned _ => true
  | _ => false

end Reading

namespace RollupSample

variable {D F : Type} {v : RollupSample}

theorem unknown_iff : v.unknown = true ↔ v.reading = .unknown := by
  obtain ⟨w, t, n, b⟩ := v
  cases n <;> cases t <;> simp [unknown, reading]

theorem reading_spec (h : v.unknown = false) :
    v.metricValueInt64 = v.reading.int64 ∧ v.metricValueUint64 = v.reading.uint64 ∧
      v.metricValueIsNegative = v.reading.isNegative ∧ (v.type = .double ↔ v.reading.isDouble = true) ∧
      (v.type = .uint64 ↔ v.reading.isUnsigned = true) := by
  obtain ⟨w, t, n, b⟩ := v
  cases n <;> cases t <;> simp_all [unknown, reading, metricValueInt64,
    metricValueUint64, metricValueIsNegative,
    Reading.int64, Reading.uint64, Reading.isNegative, Reading.isDouble,
      Reading.isUnsigned, ValueType.integer]
  · exact Int.emod_nonneg _ (by decide)
  · exact ⟨rfl, rfl⟩

theorem metricValueDouble_eq (d : RollupDoubles D F) (h : v.unknown = false) :
    v.metricValueDouble d = v.reading.toDouble d := by
  obtain ⟨w, t, n, b⟩ := v
  cases n <;> cases t <;> simp_all [unknown, reading, metricValueDouble, Reading.toDouble, RollupDoubles.read,
    ValueType.integer]

end RollupSample

theorem sub_bmod_eq_iff {x a b : UInt64} :
    ((x - a).toNat : Int).bmod (2 ^ 32) = ((x - b).toNat : Int).bmod (2 ^ 32) ↔
      a.toNat % 2 ^ 32 = b.toNat % 2 ^ 32 := by
  have hx := x.toNat_lt
  have ha := a.toNat_lt
  have hb := b.toNat_lt
  rw [UInt64.toNat_sub, UInt64.toNat_sub, Int.bmod_eq_emod, Int.bmod_eq_emod]
  split <;> split <;> omega

section Change

variable {D F : Type} {d : RollupDoubles D F} {v l x : RollupSample}

theorem calculateChange_unknown (h : v.unknown = true ∨ x.unknown = true) :
    calculateChange d v x = some (d.nan, ((x.whenceMs - v.whenceMs).toNat : Int).bmod (2 ^ 32)) := by
  have hor : (v.unknown || x.unknown) = true := by simpa using h
  rw [calculateChange, difference, if_pos hor]
  rfl

theorem calculateChange_congr (htime : v.whenceMs.toNat % 2 ^ 32 = l.whenceMs.toNat % 2 ^ 32)
    (h : v.reading = l.reading) : calculateChange d v x = calculateChange d l x := by
  have hdt := (@sub_bmod_eq_iff x.whenceMs v.whenceMs l.whenceMs).mpr htime
  by_cases hv : v.unknown = true
  · have hl : l.unknown = true := RollupSample.unknown_iff.mpr (h ▸ RollupSample.unknown_iff.mp hv)
    rw [calculateChange_unknown (.inl hv), calculateChange_unknown (.inl hl), hdt]
  · have hl : ¬ l.unknown = true := fun hl =>
      hv (RollupSample.unknown_iff.mpr (h ▸ RollupSample.unknown_iff.mp hl))
    obtain ⟨hi, hu, hn, hd, ht⟩ := RollupSample.reading_spec (Bool.eq_false_of_not_eq_true hv)
    obtain ⟨hi', hu', hn', hd', ht'⟩ := RollupSample.reading_spec (Bool.eq_false_of_not_eq_true hl)
    have hdouble := RollupSample.metricValueDouble_eq d (Bool.eq_false_of_not_eq_true hv)
    have hdouble' := RollupSample.metricValueDouble_eq d (Bool.eq_false_of_not_eq_true hl)
    simp only [calculateChange, difference, integerDifference, hdt, hv, hl, hi,
      hi', hu, hu', hn, hn', hd, hd', ht, ht',
      hdouble, hdouble', ne_eq, h]

end Change

/-! An arithmetic that writes down what it is told to subtract, so that two changes are equal in it only
if they are in every arithmetic. -/

inductive FreeDouble where
  | int (z : Int)
  | bits (b : BitVec 64)
  | sub (x y : FreeDouble)
deriving DecidableEq

def freeDoubles {F : Type} (shown : FreeDouble) (yes no : F) : RollupDoubles FreeDouble F where
  ofInt := .int
  ofBits := .bits
  toBits _ := 0
  toUint64 _ := 0
  toInt64 _ := 0
  nan := .int 0
  add x _ := x
  sub := .sub
  mul _ y := y
  div x _ := x
  sqrt x := x
  eq _ _ := false
  nonneg _ := false
  toFloat x := if x = shown then yes else no
  ofFloat _ := .int 0
  mulFloat x _ := x
  isnanf _ := true

/-- The change from a sample to one with the number k. -/
def Reading.change (k : Int) : Reading → Option FreeDouble
  | unknown => some (.int 0)
  | noNumber => none
  | integer z => some (if -2 ^ 63 ≤ k - z then .int (k - z) else .sub (.int k) (.int z))
  | unsigned n => some (.sub (.int k) (.int n))
  | double b => some (.sub (.int k) (.bits b))

section Free

variable {F : Type} {shown : FreeDouble} {yes no : F} {v l : RollupSample} {k : Int}

theorem reading_integer_bounds {z : Int} (h : v.reading = .integer z) : -2 ^ 63 ≤ z ∧ z < 2 ^ 63 := by
  unfold RollupSample.reading at h
  split_ifs at h
  cases ht : v.type <;> rw [ht] at h <;> cases h
  · exact ValueType.integer_bounds v.value (by decide) (by decide)
  · exact ValueType.integer_bounds v.value (by decide) (by decide)
  · exact ValueType.integer_bounds v.value (by decide) (by decide)

theorem integer_difference {z : Int} (hk : k = -1 ∨ k = -2) (hlow : -2 ^ 63 ≤ z) (hhigh : z < 2 ^ 63) :
    (if z > k ∧ (k - z).bmod (2 ^ 64) > 0 then Difference.doubleMath
      else if k > z ∧ (k - z).bmod (2 ^ 64) < 0 then .doubleMath else .integer ((k - z).bmod (2 ^ 64))) =
    if -2 ^ 63 ≤ k - z then .integer (k - z) else .doubleMath := by
  have hmod : (k - z).bmod (2 ^ 64) = if -2 ^ 63 ≤ k - z then k - z else k - z + 2 ^ 64 := by
    rw [Int.bmod_eq_emod]
    split_ifs <;> omega
  rw [hmod]
  by_cases hroom : -2 ^ 63 ≤ k - z
  · rw [if_pos hroom, if_pos hroom, if_neg (by omega), if_neg (by omega)]
  · rw [if_neg hroom, if_neg hroom, if_pos (by omega)]

theorem calculateChange_free (hk : k = -1 ∨ k = -2) (t : UInt64) :
    calculateChange (freeDoubles shown yes no) v (int32Sample t (BitVec.ofInt 64 k)) =
      (v.reading.change k).map (·, ((t - v.whenceMs).toNat : Int).bmod (2 ^ 32)) := by
  have hx : (int32Sample t (BitVec.ofInt 64 k)).unknown = false := rfl
  have hxr : (int32Sample t (BitVec.ofInt 64 k)).reading = .integer k := by
    have hint : (ValueType.int32.integer (BitVec.ofInt 64 k)) = k := by rcases hk with rfl | rfl <;> decide
    exact congrArg Reading.integer hint
  by_cases hv : v.unknown = true
  · rw [calculateChange_unknown (.inl hv), RollupSample.unknown_iff.mp hv]
    rfl
  · have hv' := Bool.eq_false_of_not_eq_true hv
    obtain ⟨hi, hu, hn, hd, ht⟩ := RollupSample.reading_spec hv'
    obtain ⟨hi', hu', hn', hd', ht'⟩ := RollupSample.reading_spec hx
    have hdouble := RollupSample.metricValueDouble_eq (freeDoubles shown yes no) hv'
    have hdouble' := RollupSample.metricValueDouble_eq (freeDoubles shown yes no) hx
    have hneg : k < 0 := by omega
    simp only [calculateChange, difference, integerDifference, hv', hx, hi, hi',
      hu, hu', hn, hn', hd, hd', ht, ht',
      hdouble, hdouble', hxr, ne_eq]
    cases hr : v.reading with
    | unknown => exact absurd (RollupSample.unknown_iff.mpr hr) hv
    | integer z =>
      obtain ⟨hlow, hhigh⟩ := reading_integer_bounds hr
      have hdiff := integer_difference hk hlow hhigh
      simp only [Reading.isDouble, Reading.isUnsigned, Reading.int64, Reading.toDouble,
        Bool.false_eq_true, or_self,
        Bool.or_self, if_false, not_false_eq_true, and_self, if_true, Option.bind_some,
          Option.map_some, hdiff,
        Reading.change]
      split_ifs <;> rfl
    | _ => simp [Reading.isDouble, Reading.isUnsigned, Reading.int64, Reading.uint64, Reading.isNegative,
        Reading.toDouble, Reading.change, hneg, freeDoubles, int32Sample]

theorem reading_eq_of_change (h : v.reading.change (-1) = l.reading.change (-1))
    (h' : v.reading.change (-2) = l.reading.change (-2)) : v.reading = l.reading := by
  have hroom : ∀ {u : RollupSample} {z : Int}, u.reading = .integer z → -2 ^ 63 ≤ -1 - z := by
    intro u z hu
    have := (reading_integer_bounds hu).2
    omega
  cases hv : v.reading with
  | integer z =>
    rw [hv, Reading.change, if_pos (hroom hv)] at h
    cases hl : l.reading with
    | integer z' =>
      rw [hl, Reading.change, if_pos (hroom hl)] at h
      simp only [Option.some.injEq, FreeDouble.int.injEq] at h
      rw [show z = z' by omega]
    | unknown =>
      rw [hl] at h
      simp only [Reading.change, Option.some.injEq, FreeDouble.int.injEq] at h
      rw [hv, hl, show z = -1 by omega] at h'
      exact absurd h' (by decide)
    | _ => simp [hl, Reading.change] at h
  | unknown =>
    cases hl : l.reading with
    | integer z' =>
      rw [hv, hl] at h
      simp only [Reading.change, if_pos (hroom hl), Option.some.injEq, FreeDouble.int.injEq] at h
      rw [hv, hl, show z' = -1 by omega] at h'
      exact absurd h' (by decide)
    | unknown => rfl
    | _ => simp [hv, hl, Reading.change] at h
  | _ =>
    cases hl : l.reading with
    | integer z' =>
      rw [hl, Reading.change, if_pos (hroom hl), hv] at h
      simp [Reading.change] at h
    | _ => simp_all [Reading.change]

/-- A time after the first one that is j milliseconds after the older sample, as an int counts them. -/
theorem exists_newer {first w : UInt64} (h : w ≤ first) (hfirst : first.toNat < 2 ^ 63)
    {j : Nat} (hj : j = 1 ∨ j = 2) :
    ∃ t : UInt64, first < t ∧ ((t - w).toNat : Int).bmod (2 ^ 32) = j := by
  have hle : w.toNat ≤ first.toNat := h
  have ht : (UInt64.ofNat (w.toNat + ((first.toNat - w.toNat) / 2 ^ 32 + 1) * 2 ^ 32 + j)).toNat =
      w.toNat + ((first.toNat - w.toNat) / 2 ^ 32 + 1) * 2 ^ 32 + j := by
    rw [UInt64.toNat_ofNat']
    omega
  refine ⟨.ofNat (w.toNat + ((first.toNat - w.toNat) / 2 ^ 32 + 1) * 2 ^ 32 + j),
    UInt64.lt_iff_toNat_lt.mpr ?_, ?_⟩
  · rw [ht]
    omega
  · rw [UInt64.toNat_sub, ht, Int.bmod_eq_emod]
    split <;> omega

end Free

namespace NumericRollupAccu

variable {D F : Type} {d : RollupDoubles D F} {accu : NumericRollupAccu F} {v x : RollupSample}

def observed (accu : NumericRollupAccu F) : NntMultitype F × Int × Int :=
  (accu.accumulated, accu.drun, accu.crun)

def Unnoticed (d : RollupDoubles D F) (accu : NumericRollupAccu F) (v : RollupSample) : Prop :=
  ∀ more, ((accu.accumulateNumeric d v).bind fun next => next.accumulateAll d more).map observed =
    (accu.accumulateAll d more).map observed

theorem accumulateNumeric_older (h : v.whenceMs ≤ accu.firstValueTimeMs) :
    accu.accumulateNumeric d v = some { accu with lastValue := v } := if_pos h

theorem next_of_sameLast (h : SameLast v accu.lastValue) (x : RollupSample) :
    accumulateNumeric d { accu with lastValue := v } x = accu.accumulateNumeric d x := by
  by_cases hnewer : accu.firstValueTimeMs < x.whenceMs
  · rw [@accumulateNumeric_newer D F d { accu with lastValue := v } x hnewer, accumulateNumeric_newer hnewer]
    dsimp only
    rcases h with ⟨hv, hl⟩ | ⟨hv, hl, htime, hreading⟩
    · rw [if_neg (not_not.mpr hv), if_neg (not_not.mpr hl)]
    · rw [if_pos hv, if_pos hl, calculateChange_congr htime hreading]
  · have hle : x.whenceMs ≤ accu.firstValueTimeMs := UInt64.not_lt.mp hnewer
    exact (@accumulateNumeric_older D F d { accu with lastValue := v } x hle).trans
      (accumulateNumeric_older hle).symm

theorem unnoticed_of_sameLast (h : SameLast v accu.lastValue) (hold : v.whenceMs ≤ accu.firstValueTimeMs) :
    Unnoticed d accu v := by
  intro more
  rw [accumulateNumeric_older hold, Option.bind_some]
  cases more with
  | nil => rfl
  | cons x more => rw [accumulateAll, accumulateAll, List.foldlM_cons, List.foldlM_cons, next_of_sameLast h x]

theorem type_accumulateNext (l x : RollupSample) :
    ((calculateChange d l x).map fun change => accumulateNext d accu x change.1 change.2).map
      (·.accumulated.type) ≠ some .int32 := by
  have hcount : ((accu.accumulated.count.toNat : Int) + 1) ≠ 0 := by omega
  cases calculateChange d l x with
  | none => simp
  | some change =>
    simp only [Option.map_some, accumulateNext, nntMultitypeAccumCounts, if_neg hcount]
    split_ifs <;> simp

theorem type_accumulateFirst (hx : x.type = .int32) (hnull : x.isNull = false) :
    (accumulateFirst accu x).map (·.accumulated.type) = some .int32 := by
  rw [accumulateFirst, if_neg (by simp [hnull]), hx]
  rfl

theorem Unnoticed.next (h : Unnoticed d accu v) (hold : v.whenceMs ≤ accu.firstValueTimeMs)
    (x : RollupSample) :
    (accumulateNumeric d { accu with lastValue := v } x).map observed =
    (accu.accumulateNumeric d x).map observed := by
  have hall : ∀ a : NumericRollupAccu F, a.accumulateAll d [x] = a.accumulateNumeric d x := by
    intro a
    simp [accumulateAll]
  have hnext := h [x]
  rwa [accumulateNumeric_older hold, Option.bind_some, hall, hall] at hnext

theorem Unnoticed.absent_iff (h : Unnoticed d accu v) (hold : v.whenceMs ≤ accu.firstValueTimeMs)
    (hnewer : accu.firstValueTimeMs < x.whenceMs) (hx : x.type = .int32) (hnull : x.isNull = false) :
    v.type = .absent ↔ accu.lastValue.type = .absent := by
  have hgap : ¬(x.type = .absent ∧ x.isNull = true) := by simp [hx]
  have htype := congrArg (Option.map fun o => o.1.type) (h.next hold x)
  rw [accumulateNumeric_newer hnewer, @accumulateNumeric_newer D F d
    { accu with lastValue := v } x hnewer, if_neg hgap,
    if_neg hgap, Option.map_map, Option.map_map] at htype
  by_cases hv : v.type = .absent <;> by_cases hl : accu.lastValue.type = .absent
  · simp [hv, hl]
  · rw [if_neg (not_not.mpr hv), if_pos hl] at htype
    exact absurd (htype.symm.trans (type_accumulateFirst hx hnull)) (type_accumulateNext _ _)
  · rw [if_pos hv, if_neg (not_not.mpr hl)] at htype
    exact absurd (htype.trans (type_accumulateFirst hx hnull)) (type_accumulateNext _ _)
  · simp [hv, hl]

theorem Unnoticed.change (h : Unnoticed d accu v) (hold : v.whenceMs ≤ accu.firstValueTimeMs)
    (hnewer : accu.firstValueTimeMs < x.whenceMs) (hx : x.type ≠ .absent) (hv : v.type ≠ .absent)
    (hl : accu.lastValue.type ≠ .absent) :
    ((calculateChange d v x).map fun c =>
      observed (accumulateNext d { accu with lastValue := x } x c.1 c.2)) =
      (calculateChange d accu.lastValue x).map fun c =>
        observed (accumulateNext d { accu with lastValue := x } x c.1 c.2) := by
  have hgap : ¬(x.type = .absent ∧ x.isNull = true) := fun hgap => hx hgap.1
  have hnext := h.next hold x
  rw [accumulateNumeric_newer hnewer, @accumulateNumeric_newer D F d
    { accu with lastValue := v } x hnewer, if_neg hgap,
    if_neg hgap, if_pos hv, if_pos hl, Option.map_map, Option.map_map] at hnext
  exact hnext

theorem drun_accumulateNext (x : RollupSample) (dy : D) (drun : Int) :
    (observed (accumulateNext d accu x dy drun)).2.1 = (accu.drun + drun).bmod (2 ^ 32) := rfl

/-- A null sample has a change from every other, so that the run length shows the times. -/
theorem Unnoticed.time (h : Unnoticed d accu v) (hold : v.whenceMs ≤ accu.firstValueTimeMs)
    (hnewer : accu.firstValueTimeMs < x.whenceMs) (hx : x.type ≠ .absent) (hnull : x.isNull = true)
    (hv : v.type ≠ .absent) (hl : accu.lastValue.type ≠ .absent) :
    v.whenceMs.toNat % 2 ^ 32 = accu.lastValue.whenceMs.toNat % 2 ^ 32 := by
  have hunknown : x.unknown = true := by simp [RollupSample.unknown, hnull]
  have hnext := h.change hold hnewer hx hv hl
  rw [calculateChange_unknown (.inr hunknown), calculateChange_unknown (.inr hunknown)] at hnext
  have hdrun := congrArg (fun o => o.2.1) (Option.some.inj hnext)
  simp only [drun_accumulateNext] at hdrun
  rw [Int.bmod_add_cancel_left, Int.bmod_bmod, Int.bmod_bmod] at hdrun
  exact sub_bmod_eq_iff.mp hdrun

theorem derivative_free {shown dy : FreeDouble} {yes no : F} {drun : Int}
    (hpos : 0 < drun) (hne : accu.drun + drun ≠ 0)
    (x : RollupSample) : (observed (accumulateNext (freeDoubles shown yes no) accu x dy drun)).1.derivative =
      if dy = shown then yes else no := by
  simp [observed, accumulateNext, nntMultitypeAccumCounts, RollupDoubles.accumRate, freeDoubles, hpos, hne]

theorem sameLast_of_unnoticed [Nontrivial F] (hold : v.whenceMs ≤ accu.firstValueTimeMs)
    (hfirst : accu.firstValueTimeMs.toNat < 2 ^ 63)
    (h : ∀ d : RollupDoubles FreeDouble F, d.nan = d.ofInt 0 → Unnoticed d accu v) :
    SameLast v accu.lastValue := by
  obtain ⟨yes, no, hyes⟩ := exists_pair_ne F
  obtain ⟨j, hj, hrun⟩ : ∃ j : Nat, (j = 1 ∨ j = 2) ∧ accu.drun + j ≠ 0 := by
    by_cases hone : accu.drun + 1 = 0
    · exact ⟨2, .inr rfl, by omega⟩
    · exact ⟨1, .inl rfl, hone⟩
  obtain ⟨t, hnewer, hdt⟩ := exists_newer hold hfirst hj
  have hfree : ∀ shown, Unnoticed (freeDoubles shown yes no) accu v := fun shown => h _ rfl
  have habsent := (hfree (.int 0)).absent_iff (x := int32Sample t 0) hold hnewer rfl rfl
  by_cases hv : v.type = .absent
  · exact .inl ⟨hv, habsent.mp hv⟩
  have hl : accu.lastValue.type ≠ .absent := fun hl => hv (habsent.mpr hl)
  have htime := (hfree (.int 0)).time (x := ⟨t, .int32, true, 0⟩) hold hnewer (by simp) rfl hv hl
  have hdt' : ((t - accu.lastValue.whenceMs).toNat : Int).bmod (2 ^ 32) = j := by
    rw [← hdt]
    exact (sub_bmod_eq_iff.mpr htime).symm
  -- the change from the older sample is the one that is shown
  have hchange : ∀ k : Int, k = -1 ∨ k = -2 → v.reading.change k = accu.lastValue.reading.change k := by
    intro k hk
    have hnext := (hfree ((v.reading.change k).getD (.int 0))).change
      (x := int32Sample t (BitVec.ofInt 64 k)) hold
      hnewer (by simp [int32Sample]) hv hl
    rw [calculateChange_free hk, calculateChange_free hk, hdt, hdt', Option.map_map, Option.map_map] at hnext
    cases hc : v.reading.change k with
    | none =>
      rw [hc, Option.map_none] at hnext
      exact (Option.map_eq_none_iff.mp hnext.symm).symm
    | some a =>
      cases hc' : accu.lastValue.reading.change k with
      | none =>
        rw [hc, hc', Option.map_none] at hnext
        cases hnext
      | some b =>
        rw [hc, hc', Option.map_some, Option.map_some, Option.getD_some] at hnext
        have hderivative := congrArg (fun o => o.1.derivative) (Option.some.inj hnext)
        have hpos : (0 : Int) < j := by omega
        simp only [Function.comp_apply] at hderivative
        have hshows := fun dy => @derivative_free F
          { accu with lastValue := int32Sample t (BitVec.ofInt 64 k) } a dy yes
          no j hpos hrun (int32Sample t (BitVec.ofInt 64 k))
        rw [hshows a, hshows b, if_pos rfl] at hderivative
        by_cases hab : b = a
        · rw [hab]
        · rw [if_neg hab] at hderivative
          exact absurd hderivative hyes
  exact .inr ⟨hv, hl, htime, reading_eq_of_change (hchange (-1) (.inl rfl)) (hchange (-2) (.inr rfl))⟩

/-- A sample that is not newer than the first one of the window goes unnoticed, whatever the arithmetic,
exactly if it agrees with the last value it replaces. -/
theorem older_sample_unnoticed [Nontrivial F] (accu : NumericRollupAccu F) (v : RollupSample)
    (hold : v.whenceMs ≤ accu.firstValueTimeMs) (hfirst : accu.firstValueTimeMs.toNat < 2 ^ 63) :
    (∀ (D : Type) (d : RollupDoubles D F), d.nan = d.ofInt 0 → Unnoticed d accu v) ↔
      SameLast v accu.lastValue :=
  ⟨fun h => sameLast_of_unnoticed hold hfirst (h FreeDouble), fun h _ _ _ => unnoticed_of_sameLast h hold⟩

end NumericRollupAccu

def afterSamples (samples : List RollupSample) : NumericRollupAccu Int :=
  ((NumericRollupAccu.fresh wholeDoubles).accumulateAll wholeDoubles samples).getD
    (NumericRollupAccu.fresh wholeDoubles)

/-- The last value once more, as an int64. -/
theorem older_sample_repeated :
    (afterSamples [int32Sample 1000 5]).lastValue = int32Sample 1000 5 ∧
    NumericRollupAccu.Unnoticed wholeDoubles (afterSamples [int32Sample 1000 5]) ⟨1000, .int64, false, 5⟩ :=
  ⟨by decide, (NumericRollupAccu.older_sample_unnoticed _ _ (by decide) (by decide)).mpr
    (.inr ⟨by decide, by decide, by decide, by decide⟩) Int wholeDoubles rfl⟩

theorem older_sample_noticed :
    (int32Sample 500 0).whenceMs ≤ (afterSamples [int32Sample 1000 5, int32Sample 3000 10]).firstValueTimeMs ∧
    (afterSamples [int32Sample 1000 5, int32Sample 3000 10, int32Sample 4000 20]).drun = 3000 ∧
    (afterSamples [int32Sample 1000 5, int32Sample 3000 10, int32Sample 500 0,
      int32Sample 4000 20]).drun = 5500 := by
  decide

end Reconnoiter
