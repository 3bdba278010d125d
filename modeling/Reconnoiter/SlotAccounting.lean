import Reconnoiter.Machine
import Reconnoiter.PeriodicFiring

/-! The slots of a minute: the scheduled checks are counted by the 20 ms slot and by the second they
were placed in, from when they are initiated until they are found to be disabled. -/

namespace Reconnoiter

open ClockTime

structure Slots where
  count : Int → UInt16
  seconds : Int → UInt16

def offsetMs (tv : ClockTime) : Int := tv.sec.tmod 60 * 1000 + tv.usec / 1000

def slotIndex (tv : ClockTime) : Int := (offsetMs tv).tdiv 20

def secondIndex (tv : ClockTime) : Int := (offsetMs tv).tdiv 1000

def Slots.adjustTv (s : Slots) (tv : ClockTime) (adj : UInt16) : Slots where
  count := Function.update s.count (slotIndex tv) (s.count (slotIndex tv) + adj)
  seconds := Function.update s.seconds (secondIndex tv) (s.seconds (secondIndex tv) + adj)

def leastBusy (running : Int → UInt16) (places : List Int) : Int :=
  (places.foldl (fun least i => if running i < least.2 then (i, running i) else least)
    ((0, 0xffff) : Int × UInt16)).1

def priorityDeadZoneSeconds : Int := 3

/-- `check_slots_find_smallest`; the two random numbers are below 50 and below 20. -/
def findSmallest (s : Slots) (priorityScheduling : Bool) (sec : Int) (period : ClockTime) (timeout : Int)
    (randomOffset jitter : Nat) : Int :=
  let periodSeconds := if 60 < period.sec then 60 else period.sec
  let mini :=
    if priorityScheduling ∧ period.sec.tmod 60 = 0 ∧ period.usec = 0 then
      let allowableTime := max (60 - timeout.tdiv 1000 - 1) 10
      let maxSeconds := min (60 - priorityDeadZoneSeconds) allowableTime
      leastBusy s.seconds ((List.range maxSeconds.toNat).map fun i : Nat => (i + sec).tmod maxSeconds)
    else leastBusy s.seconds ((List.range periodSeconds.toNat).map fun i : Nat => (i + sec).tmod 60)
  let jbase := mini * 50
  leastBusy s.count ((List.range 50).map fun cyclic =>
    jbase + ((randomOffset + cyclic) % 50 : Nat)) * 20 + jitter

/-- `placed` is the time under which the slots counted the check when it was last initiated. -/
structure PlacedCheck where
  check : PeriodicCheck
  timeout : Int
  fire : FireState
  placed : ClockTime

/-- A decrement: the time of the increment, its own time and the counts it was made from. -/
structure SlotRelease where
  placed : ClockTime
  released : ClockTime
  slot : UInt16
  second : UInt16

structure SlotSystem where
  priorityScheduling : Bool
  slots : Slots
  checks : List PlacedCheck
  releases : List SlotRelease

inductive SlotEvent where
  | add (c : PeriodicCheck) (timeout : Int)
  | flag (i : Nat) (disabled resolved : Bool)
  | initiate (i : Nat) (start now : ClockTime) (randomOffset jitter : Nat)
  | fire (i : Nat) (delay : Nat)

namespace SlotSystem

def setCheck (s : SlotSystem) (i : Nat) (e : PlacedCheck) : SlotSystem :=
  { s with checks := s.checks.set i e }

def place (s : SlotSystem) (e : PlacedCheck) : SlotSystem :=
  if e.check.transient then s else { s with slots := s.slots.adjustTv e.placed 1 }

def release (s : SlotSystem) (e : PlacedCheck) (lastCheck : ClockTime) : SlotSystem :=
  if e.check.period ≠ 0 ∧ e.check.disabled ∧ e.check.transient = false then
    { s with
      slots := s.slots.adjustTv lastCheck (-1)
      releases :=
        ⟨e.placed, lastCheck, s.slots.count (slotIndex lastCheck), s.slots.seconds (secondIndex lastCheck)⟩ ::
          s.releases }
  else s

def initiate (s : SlotSystem) (i : Nat) (e : PlacedCheck) (start now : ClockTime)
    (randomOffset jitter : Nat) :
    Option SlotSystem :=
  if e.fire.fireEvent.isSome then some s
  else
    let balanceMs := (findSmallest s.slots s.priorityScheduling (start.sec + 1) e.check.periodTime e.timeout
      randomOffset jitter).toNat
    let (lastCheck, placed) := fakeLastCheck e.check balanceMs start
    let e := { e with placed }
    (initiateCheck e.check e.fire balanceMs start now).toOption.map fun fire =>
      ((s.place e).release e lastCheck).setCheck i { e with fire }

def runTimer (s : SlotSystem) (i : Nat) (e : PlacedCheck) (delay : Nat) : Option SlotSystem :=
  let s := if e.fire.nextFire.isSome then s.release e e.fire.initialScheduleTime else s
  (Reconnoiter.runTimer e.check e.fire delay).toOption.map fun fire => s.setCheck i { e with fire }

def step (s : SlotSystem) : SlotEvent → Option SlotSystem
  | .add c timeout => some { s with checks := s.checks ++ [⟨c, timeout, ⟨ofUs 0, none, none, 0⟩, ofUs 0⟩] }
  | .flag i disabled resolved =>
    s.checks[i]?.map fun e => s.setCheck i { e with check := { e.check with disabled, resolved } }
  | .initiate i start now randomOffset jitter => s.checks[i]?.bind fun e =>
      s.initiate i e start now randomOffset jitter
  | .fire i delay => s.checks[i]?.bind fun e => s.runTimer i e delay

end SlotSystem

def PlacedCheck.scheduled (e : PlacedCheck) : Bool := e.fire.nextFire.isSome

def PlacedCheck.placedIn (index : ClockTime → Int) (j : Int) (e : PlacedCheck) : Bool :=
  e.scheduled && index e.placed == j

structure SlotSystem.Balanced (s : SlotSystem) : Prop where
  released : ∀ r ∈ s.releases, slotIndex r.released = slotIndex r.placed ∧
    secondIndex r.released = secondIndex r.placed
  noWrap : ∀ r ∈ s.releases, r.slot ≠ 0 ∧ r.second ≠ 0
  count : ∀ j, (s.slots.count j).toNat = s.checks.countP (PlacedCheck.placedIn slotIndex j)
  seconds : ∀ k, (s.slots.seconds k).toNat = ∑ j ∈ Finset.range 50, (s.slots.count (k * 50 + j)).toNat

/-- What the surroundings keep to: the clock does not run before the epoch nor backwards, the random
numbers are in their ranges, fewer than 65536 checks are scheduled at a time, and no handler is run in
the last millisecond before the next point of its check's grid. -/
def SlotSystem.Allowed (periods : Set UInt32) (s : SlotSystem) : SlotEvent → Prop
  | .add c _ => c.transient = false ∧ c.period ≠ 0 ∧ c.period ∈ periods
  | .flag _ _ _ => True
  | .initiate i start now randomOffset jitter =>
    start.us ≤ now.us ∧ (∀ e ∈ s.checks[i]?, e.check.periodTime.us ≤ start.us) ∧
      randomOffset < 50 ∧ jitter < 20 ∧
      s.checks.countP PlacedCheck.scheduled < 65535
  | .fire i delay => ∀ e ∈ s.checks[i]?, ∀ w ∈ e.fire.nextFire, e.check.disabled = false →
    (w.us + delay - e.fire.initialScheduleTime.us) % e.check.wait none + 1000 ≤ e.check.wait none

instance (periods : Set UInt32) [DecidablePred (· ∈ periods)] (s : SlotSystem) (a : SlotEvent) :
    Decidable (s.Allowed periods a) :=
  match a with
  | .add c _ => inferInstanceAs (Decidable (c.transient = false ∧ c.period ≠ 0 ∧ c.period ∈ periods))
  | .flag _ _ _ => inferInstanceAs (Decidable True)
  | .initiate i start now randomOffset jitter => inferInstanceAs (Decidable (start.us ≤ now.us ∧
      (∀ e ∈ s.checks[i]?, e.check.periodTime.us ≤ start.us) ∧ randomOffset < 50 ∧ jitter < 20 ∧
        s.checks.countP PlacedCheck.scheduled < 65535))
  | .fire i delay => inferInstanceAs (Decidable (∀ e ∈ s.checks[i]?, ∀ w ∈ e.fire.nextFire,
      e.check.disabled = false →
        (w.us + delay - e.fire.initialScheduleTime.us) % e.check.wait none + 1000 ≤ e.check.wait none))

def SlotSystem.empty (priorityScheduling : Bool) : SlotSystem :=
  ⟨priorityScheduling, ⟨fun _ => 0, fun _ => 0⟩, [], []⟩

section Grid

theorem backLoop_grid {now period : ClockTime} (hp : 0 < period.us) {lc : ClockTime} (hlt : now.us < lc.us) :
    (∃ k : Int, (backLoop now hp lc).us = lc.us + k * period.us) ∧ now.us <
    (backLoop now hp lc).us + period.us := by
  fun_induction backLoop now hp lc with
  | case1 lc h ih =>
    rw [compareTimeval_neg_iff] at h
    obtain ⟨⟨k, hk⟩, hnear⟩ := ih h
    refine ⟨⟨k - 1, ?_⟩, hnear⟩
    rw [hk, us_subTimeval]
    ring
  | case2 lc h =>
    rw [us_subTimeval]
    exact ⟨⟨-1, by ring⟩, by omega⟩

theorem forwardLoop_grid {now period : ClockTime} (hp : 0 < period.us) (lc : ClockTime) :
    (∃ k : Int, (forwardLoop now hp lc).us = lc.us + k * period.us) ∧
      now.us < (forwardLoop now hp lc).us + period.us := by
  fun_induction forwardLoop now hp lc with
  | case1 lc h =>
    rw [compareTimeval_neg_iff, us_addTimeval] at h
    exact ⟨⟨0, by ring⟩, h⟩
  | case2 lc h ih =>
    obtain ⟨⟨k, hk⟩, hnear⟩ := ih
    refine ⟨⟨k + 1, ?_⟩, hnear⟩
    rw [hk, us_addTimeval]
    ring

variable {c : PeriodicCheck}

theorem us_placed (hsteady : c.transient = false) (hperiod : c.period ≠ 0)
    (balanceMs : Nat) (start : ClockTime) :
    (fakeLastCheck c balanceMs start).2.us =
      (subTimeval start c.periodTime).sec.tdiv 60 * 60000000 + balanceMs * 1000 := by
  unfold fakeLastCheck
  rw [dif_pos ⟨hsteady, hperiod⟩]
  dsimp only
  split_ifs <;> (dsimp only [us]; omega)

theorem fakeLastCheck_grid (hsteady : c.transient = false) (hperiod : c.period ≠ 0) (balanceMs : Nat)
    (start : ClockTime) :
    (∃ k : Int, (fakeLastCheck c balanceMs start).1.us =
      (fakeLastCheck c balanceMs start).2.us + k * c.step) ∧
      start.us < (fakeLastCheck c balanceMs start).1.us + c.step := by
  have hstep : c.step = c.periodTime.us := by rw [PeriodicCheck.periodTime, us_ofMillis]; rfl
  rw [hstep]
  unfold fakeLastCheck
  rw [dif_pos ⟨hsteady, hperiod⟩]
  dsimp only
  split_ifs with hafter
  · rw [compareTimeval_neg_iff] at hafter
    exact backLoop_grid _ hafter
  · exact forwardLoop_grid _ _

theorem fakeLastCheck_nonneg (hsteady : c.transient = false) (hperiod : c.period ≠ 0) (balanceMs : Nat)
    {start : ClockTime} (hclock : c.periodTime.us ≤ start.us) :
    0 ≤ (fakeLastCheck c balanceMs start).1.us ∧ 0 ≤ (fakeLastCheck c balanceMs start).2.us := by
  have hstep : c.step = c.periodTime.us := by rw [PeriodicCheck.periodTime, us_ofMillis]; rfl
  have hnear := (fakeLastCheck_grid hsteady hperiod balanceMs start).2
  refine ⟨by omega, ?_⟩
  have hsec : 0 ≤ (subTimeval start c.periodTime).sec := by
    have hus := us_subTimeval start c.periodTime
    have hlt := (subTimeval start c.periodTime).usec_lt
    rw [us] at hus
    omega
  rw [us_placed hsteady hperiod]
  have hdiv := Int.tdiv_nonneg hsec (show (0 : Int) ≤ 60 by decide)
  omega

end Grid

section Index

variable {a b : ClockTime}

theorem offsetMs_eq (h : 0 ≤ a.us) : offsetMs a = a.us % 60000000 / 1000 := by
  have hlt := a.usec_lt
  have hnonneg := a.usec_nonneg
  rw [us] at h
  have hsec : 0 ≤ a.sec := by omega
  rw [offsetMs, us, Int.tmod_eq_emod_of_nonneg hsec]
  omega

theorem offsetMs_congr (ha : 0 ≤ a.us) (hb : 0 ≤ b.us) (h : 60000000 ∣ a.us - b.us) :
    offsetMs a = offsetMs b := by
  rw [offsetMs_eq ha, offsetMs_eq hb]
  omega

theorem secondIndex_eq (h : 0 ≤ a.us) : secondIndex a = slotIndex a / 50 := by
  have hoff := offsetMs_eq h
  rw [secondIndex, slotIndex, Int.tdiv_eq_ediv_of_nonneg (by omega), Int.tdiv_eq_ediv_of_nonneg (by omega)]
  omega

end Index

section Counting

theorem countP_set_add {α : Type*} (p : α → Bool) {l : List α} {i : Nat} {a : α}
    (h : l[i]? = some a) (b : α) :
    (l.set i b).countP p + (p a).toNat = l.countP p + (p b).toNat := by
  induction l generalizing i with
  | nil => simp at h
  | cons x l ih =>
    cases i with
    | zero =>
      obtain rfl : x = a := by simpa using h
      cases hx : p x <;> cases hb : p b <;> simp [hx, hb]
    | succ i =>
      have hrest := ih (by simpa using h)
      cases hx : p x <;> simp [hx] <;> omega

theorem toNat_update_inc {f : Int → UInt16} {i : Int} (h : (f i).toNat < 65535) (j : Int) :
    (Function.update f i (f i + 1) j).toNat = (f j).toNat + (i == j).toNat := by
  by_cases hij : i = j
  · subst hij
    simp
    omega
  · simp [hij, Function.update_of_ne (Ne.symm hij)]

theorem toNat_update_dec {f : Int → UInt16} {i : Int} (h : f i ≠ 0) (j : Int) :
    (Function.update f i (f i + -1) j).toNat + (i == j).toNat = (f j).toNat := by
  by_cases hij : i = j
  · subst hij
    have hne : (f i).toNat ≠ 0 := fun h0 => h (UInt16.toNat_inj.mp h0)
    have hlt := (f i).toNat_lt
    simp [UInt16.toNat_add]
    omega
  · simp [hij, Function.update_of_ne (Ne.symm hij)]

def CountsBy (f : Int → UInt16) (index : ClockTime → Int) (checks : List PlacedCheck) : Prop :=
  ∀ j, (f j).toNat = checks.countP (PlacedCheck.placedIn index j)

namespace CountsBy

variable {f : Int → UInt16} {index : ClockTime → Int} {checks : List PlacedCheck}
    {i : Nat} {e e' : PlacedCheck}

theorem inc (h : CountsBy f index checks) (hget : checks[i]? = some e) (hidle : e.scheduled = false)
    (hsched : e'.scheduled = true) (hroom : checks.countP PlacedCheck.scheduled < 65535) :
    CountsBy (Function.update f (index e'.placed) (f (index e'.placed) + 1)) index (checks.set i e') := by
  have hlt : (f (index e'.placed)).toNat < 65535 := by
    rw [h]
    refine lt_of_le_of_lt (List.countP_mono_left ?_) hroom
    intro e _ he
    exact (Bool.and_eq_true_iff.mp he).1
  intro j
  have hset := countP_set_add (PlacedCheck.placedIn index j) hget e'
  rw [PlacedCheck.placedIn, PlacedCheck.placedIn, hidle, hsched, Bool.false_and, Bool.true_and, ← h j] at hset
  exact (toNat_update_inc hlt j).trans hset.symm

theorem ne_zero (h : CountsBy f index checks) (hget : checks[i]? = some e) (hsched : e.scheduled = true) :
    f (index e.placed) ≠ 0 := by
  intro hzero
  have hcount := h (index e.placed)
  rw [hzero] at hcount
  exact List.countP_eq_zero.mp hcount.symm e (List.mem_of_getElem? hget)
    (by simp [PlacedCheck.placedIn, hsched])

theorem dec (h : CountsBy f index checks) (hget : checks[i]? = some e) (hsched : e.scheduled = true)
    (hidle : e'.scheduled = false) :
    CountsBy (Function.update f (index e.placed) (f (index e.placed) + -1)) index (checks.set i e') := by
  intro j
  have hset := countP_set_add (PlacedCheck.placedIn index j) hget e'
  rw [PlacedCheck.placedIn, PlacedCheck.placedIn, hidle, hsched, Bool.false_and, Bool.true_and, ← h j] at hset
  exact Nat.add_right_cancel ((toNat_update_dec (h.ne_zero hget hsched) j).trans hset.symm)

theorem set (h : CountsBy f index checks) (hget : checks[i]? = some e) (hsched : e'.scheduled = e.scheduled)
    (hplaced : e.scheduled = true → e'.placed = e.placed) : CountsBy f index (checks.set i e') := by
  intro j
  have hset := countP_set_add (PlacedCheck.placedIn index j) hget e'
  have hsame : e'.placedIn index j = e.placedIn index j := by
    unfold PlacedCheck.placedIn
    cases hs : e.scheduled
    · rw [hsched, hs, Bool.false_and, Bool.false_and]
    · rw [hsched, hs, hplaced hs]
  rw [hsame] at hset
  exact (h j).trans (Nat.add_right_cancel hset).symm

end CountsBy

structure Slots.Counts (s : Slots) (checks : List PlacedCheck) : Prop where
  count : CountsBy s.count slotIndex checks
  seconds : CountsBy s.seconds secondIndex checks

variable {checks : List PlacedCheck}

theorem countP_second (k : Int) (h : ∀ e ∈ checks, e.scheduled = true → 0 ≤ e.placed.us) :
    checks.countP (PlacedCheck.placedIn secondIndex k) =
      ∑ j ∈ Finset.range 50, checks.countP (PlacedCheck.placedIn slotIndex (k * 50 + j)) := by
  induction checks with
  | nil => simp
  | cons e checks ih =>
    have hone : (PlacedCheck.placedIn secondIndex k e).toNat =
        ∑ j ∈ Finset.range 50, (PlacedCheck.placedIn slotIndex (k * 50 + j) e).toNat := by
      unfold PlacedCheck.placedIn
      cases hs : e.scheduled with
      | false => simp
      | true =>
        have heq := secondIndex_eq (h e (by simp) hs)
        by_cases hin : slotIndex e.placed / 50 = k
        · rw [Finset.sum_eq_single_of_mem (slotIndex e.placed - k * 50).toNat]
          · have hplace : slotIndex e.placed = k * 50 + (slotIndex e.placed - k * 50).toNat := by omega
            rw [heq, hin, ← hplace, beq_self_eq_true, beq_self_eq_true]
          · rw [Finset.mem_range]
            omega
          · intro j _ hne
            simp only [Bool.true_and, Bool.toNat_eq_zero, beq_eq_false_iff_ne]
            omega
        · rw [Finset.sum_eq_zero]
          · simp [heq, hin]
          · intro j hj
            rw [Finset.mem_range] at hj
            simp only [Bool.true_and, Bool.toNat_eq_zero, beq_eq_false_iff_ne]
            omega
    have hsplit : ∀ p : PlacedCheck → Bool, (e :: checks).countP p = checks.countP p + (p e).toNat := by
      intro p
      cases hp : p e <;> simp [hp]
    simp only [hsplit]
    rw [Finset.sum_add_distrib, ← hone, ih fun e' he' => h e' (by simp [he'])]

end Counting

section Invariant

theorem nextFire_eq_some_iff {st : FireState} {w : ClockTime} :
    st.nextFire = some w ↔ ∃ ev, st.timer = some (ev, w) ∧ st.fireEvent = some ev := by
  rw [FireState.nextFire, Option.bind_eq_some_iff]
  constructor
  · rintro ⟨⟨ev, w'⟩, htimer, hif⟩
    dsimp only at hif
    split_ifs at hif with hfire
    cases hif
    exact ⟨ev, htimer, hfire⟩
  · rintro ⟨ev, htimer, hfire⟩
    exact ⟨(ev, w), htimer, if_pos hfire⟩

structure PlacedCheck.Seated (e : PlacedCheck) : Prop where
  armed : ∃ w, e.fire.nextFire = some w ∧ e.fire.initialScheduleTime.us ≤ w.us
  initial_nonneg : 0 ≤ e.fire.initialScheduleTime.us
  placed_nonneg : 0 ≤ e.placed.us
  minutes : 60000000 ∣ e.fire.initialScheduleTime.us - e.placed.us

theorem PlacedCheck.Seated.scheduled {e : PlacedCheck} (h : e.Seated) : e.scheduled = true := by
  obtain ⟨w, hw, -⟩ := h.armed
  rw [PlacedCheck.scheduled, hw]
  rfl

theorem PlacedCheck.Seated.offset {e : PlacedCheck} (h : e.Seated) :
    offsetMs e.fire.initialScheduleTime = offsetMs e.placed :=
  offsetMs_congr h.initial_nonneg h.placed_nonneg h.minutes

theorem PlacedCheck.not_scheduled {e : PlacedCheck} (h : e.fire.fireEvent = none) : e.scheduled = false := by
  rw [PlacedCheck.scheduled, Option.isSome_eq_false_iff, Option.isNone_iff_eq_none,
    Option.eq_none_iff_forall_ne_some]
  intro w hw
  obtain ⟨ev, -, hfire⟩ := nextFire_eq_some_iff.mp hw
  rw [h] at hfire
  cases hfire

structure PlacedCheck.Sound (e : PlacedCheck) : Prop where
  steady : e.check.transient = false
  period_ne : e.check.period ≠ 0
  minutes : 60000 ∣ e.check.period.toNat
  idle_or_seated : e.fire.fireEvent = none ∨ e.Seated

structure SlotSystem.Inv (s : SlotSystem) : Prop where
  sound : ∀ e ∈ s.checks, e.Sound
  counts : s.slots.Counts s.checks
  released : ∀ r ∈ s.releases, slotIndex r.released = slotIndex r.placed ∧
    secondIndex r.released = secondIndex r.placed
  noWrap : ∀ r ∈ s.releases, r.slot ≠ 0 ∧ r.second ≠ 0

namespace SlotSystem

variable {s t : SlotSystem} {i : Nat} {e e' : PlacedCheck} {tv : ClockTime}

theorem Inv.balanced (h : s.Inv) : s.Balanced := by
  refine ⟨h.released, h.noWrap, h.counts.count, fun k => ?_⟩
  rw [h.counts.seconds k, countP_second k]
  · exact Finset.sum_congr rfl fun j _ => (h.counts.count _).symm
  · intro e he hsched
    rcases (h.sound e he).idle_or_seated with hidle | hseated
    · rw [PlacedCheck.not_scheduled hidle] at hsched
      cases hsched
    · exact hseated.placed_nonneg

theorem release_enabled (h : e.check.disabled = false) : s.release e tv = s := if_neg (by simp [h])

theorem place_steady (h : e.check.transient = false) :
    s.place e = { s with slots := s.slots.adjustTv e.placed 1 } := if_neg (by simp [h])

theorem getElem?_placed (hget : s.checks[i]? = some e) (e' : PlacedCheck) :
    ((s.place e').setCheck i e').checks[i]? = some e' := by
  have hchecks : (s.place e').checks = s.checks := by
    unfold SlotSystem.place
    split_ifs <;> rfl
  have hlt : i < s.checks.length := (List.getElem?_eq_some_iff.mp hget).1
  rw [SlotSystem.setCheck, hchecks]
  exact List.getElem?_set_self hlt

theorem setCheck_release {u v w : PlacedCheck} (hcheck : u.check = v.check) (hplaced : u.placed = v.placed) :
    (((s.place u).setCheck i u).release u tv).setCheck i w = ((s.place v).release v tv).setCheck i w := by
  unfold SlotSystem.place SlotSystem.release SlotSystem.setCheck
  rw [hcheck, hplaced]
  split_ifs <;> simp

theorem Inv.release (h : s.Inv) (hget : s.checks[i]? = some e) (hseated : e.Seated)
    (hdisabled : e.check.disabled = true) (hidle : e'.fire.fireEvent = none) (hsound : e'.Sound) :
    ((s.release e e.fire.initialScheduleTime).setCheck i e').Inv := by
  have hmem := h.sound e (List.mem_of_getElem? hget)
  have hslot : slotIndex e.fire.initialScheduleTime = slotIndex e.placed := by
    rw [slotIndex, hseated.offset]; rfl
  have hsecond : secondIndex e.fire.initialScheduleTime = secondIndex e.placed := by
    rw [secondIndex, hseated.offset]; rfl
  have hnot := PlacedCheck.not_scheduled hidle
  rw [SlotSystem.release, if_pos ⟨hmem.period_ne, hdisabled, hmem.steady⟩]
  refine ⟨?_, ⟨?_, ?_⟩, ?_, ?_⟩
  · intro e'' he''
    rcases List.mem_or_eq_of_mem_set he'' with hold | rfl
    · exact h.sound e'' hold
    · exact hsound
  · dsimp only [setCheck, Slots.adjustTv]
    rw [hslot]
    exact h.counts.count.dec hget hseated.scheduled hnot
  · dsimp only [setCheck, Slots.adjustTv]
    rw [hsecond]
    exact h.counts.seconds.dec hget hseated.scheduled hnot
  · intro r hr
    rcases List.mem_cons.mp hr with rfl | hr
    · exact ⟨hslot, hsecond⟩
    · exact h.released r hr
  · intro r hr
    rcases List.mem_cons.mp hr with rfl | hr
    · dsimp only
      rw [hslot, hsecond]
      exact ⟨h.counts.count.ne_zero hget hseated.scheduled, h.counts.seconds.ne_zero hget hseated.scheduled⟩
    · exact h.noWrap r hr

theorem Inv.place (h : s.Inv) (hget : s.checks[i]? = some e) (hidle : e.fire.fireEvent = none)
    (hseated : e'.Seated) (hsound : e'.Sound) (hroom : s.checks.countP PlacedCheck.scheduled < 65535) :
    ((s.place e').setCheck i e').Inv := by
  have hnot := PlacedCheck.not_scheduled hidle
  rw [place_steady hsound.steady]
  refine ⟨?_, ⟨?_, ?_⟩, h.released, h.noWrap⟩
  · intro e'' he''
    rcases List.mem_or_eq_of_mem_set he'' with hold | rfl
    · exact h.sound e'' hold
    · exact hsound
  · exact h.counts.count.inc hget hnot hseated.scheduled hroom
  · exact h.counts.seconds.inc hget hnot hseated.scheduled hroom

theorem Inv.setCheck (h : s.Inv) (hget : s.checks[i]? = some e) (hsound : e'.Sound)
    (hsched : e'.scheduled = e.scheduled) (hplaced : e.scheduled = true → e'.placed = e.placed) :
    (s.setCheck i e').Inv := by
  refine ⟨?_, ⟨h.counts.count.set hget hsched hplaced, h.counts.seconds.set hget hsched hplaced⟩,
    h.released, h.noWrap⟩
  intro e'' he''
  rcases List.mem_or_eq_of_mem_set he'' with hold | rfl
  · exact h.sound e'' hold
  · exact hsound

theorem scheduleNext_disabled {c : PeriodicCheck} (hperiod : c.period ≠ 0) (hdisabled : c.disabled = true)
    (st : FireState) (lastCheck : Option ClockTime) (now : ClockTime) :
    scheduleNext c st lastCheck now false = .ok ({ st with initialScheduleTime := ofUs 0 }, 0) := by
  rw [scheduleNext, if_neg Bool.false_ne_true, if_neg hperiod, if_pos hdisabled]

theorem seated_initiate (hsound : e.Sound) (balanceMs : Nat) {start tgt : ClockTime} (ev next : Nat)
    (hclock : e.check.periodTime.us ≤ start.us)
    (hle : (fakeLastCheck e.check balanceMs start).1.us ≤ tgt.us) :
    PlacedCheck.Seated { e with
      placed := (fakeLastCheck e.check balanceMs start).2
      fire := ⟨(fakeLastCheck e.check balanceMs start).1, some ev, some (ev, tgt), next⟩ } := by
  obtain ⟨hinitial, hplaced⟩ := fakeLastCheck_nonneg hsound.steady hsound.period_ne balanceMs hclock
  obtain ⟨⟨k, hk⟩, -⟩ := fakeLastCheck_grid hsound.steady hsound.period_ne balanceMs start
  refine ⟨⟨tgt, nextFire_eq_some_iff.mpr ⟨ev, rfl, rfl⟩, hle⟩, hinitial, hplaced, ?_⟩
  obtain ⟨m, hm⟩ := hsound.minutes
  refine ⟨k * m, ?_⟩
  dsimp only
  rw [hk, PeriodicCheck.step, hm]
  push_cast
  ring

theorem Inv.initiate (h : s.Inv) (hget : s.checks[i]? = some e) {start now : ClockTime}
    {randomOffset jitter : Nat} (hclock : start.us ≤ now.us) (hstart : e.check.periodTime.us ≤ start.us)
    (hroom : s.checks.countP PlacedCheck.scheduled < 65535)
    (hstep : s.initiate i e start now randomOffset jitter = some t) : t.Inv := by
  have hsound := h.sound e (List.mem_of_getElem? hget)
  rw [SlotSystem.initiate] at hstep
  split_ifs at hstep with hlive
  · cases hstep
    exact h
  · have hidle : e.fire.fireEvent = none := by simpa using hlive
    dsimp only at hstep
    generalize (findSmallest s.slots s.priorityScheduling
      (start.sec + 1) e.check.periodTime e.timeout randomOffset
      jitter).toNat = balanceMs at hstep
    have hle := (us_fakeLastCheck_le e.check balanceMs start).trans hclock
    rw [initiateCheck, if_neg hlive] at hstep
    cases hdisabled : e.check.disabled with
    | false =>
      obtain ⟨tgt, htgt, hsched⟩ := @scheduleNext_eq e.check e.fire hsound.period_ne hdisabled
        (some (fakeLastCheck e.check balanceMs start).1) now hle
      have hafter : now.us < tgt.us := htgt ▸ lt_nextPoint (PeriodicCheck.wait_pos hsound.period_ne _)
      have hseated := seated_initiate hsound balanceMs e.fire.nextEvent (e.fire.nextEvent + 1) hstart
        (hle.trans hafter.le)
      rw [hsched] at hstep
      cases hstep
      dsimp only
      rw [release_enabled]
      · exact h.place hget hidle hseated ⟨hsound.steady, hsound.period_ne, hsound.minutes, .inr hseated⟩ hroom
      · exact hdisabled
    | true =>
      -- as if the check had got a timer and then given its place back
      have hseated := seated_initiate hsound balanceMs 0 0 hstart (hle : _ ≤ now.us)
      have hplaced := h.place hget hidle hseated
        ⟨hsound.steady, hsound.period_ne, hsound.minutes, .inr hseated⟩ hroom
      rw [scheduleNext_disabled hsound.period_ne hdisabled] at hstep
      cases hstep
      dsimp only
      rw [← @setCheck_release s i _ { e with
        placed := (fakeLastCheck e.check balanceMs start).2
        fire := ⟨(fakeLastCheck e.check balanceMs start).1, some 0, some (0, now), 0⟩ }
        { e with placed := (fakeLastCheck e.check balanceMs start).2 } _ rfl rfl]
      exact hplaced.release (getElem?_placed hget _) hseated hdisabled hidle
        ⟨hsound.steady, hsound.period_ne, hsound.minutes, .inl hidle⟩

theorem runTimer_disabled {w : ClockTime} (hnext : e.fire.nextFire = some w) (hperiod : e.check.period ≠ 0)
    (hdisabled : e.check.disabled = true) (delay : Nat) :
    s.runTimer i e delay = some ((s.release e e.fire.initialScheduleTime).setCheck i
      { e with fire := ⟨ofUs 0, none, none, e.fire.nextEvent⟩ }) := by
  obtain ⟨ev, htimer, hfire⟩ := nextFire_eq_some_iff.mp hnext
  rw [SlotSystem.runTimer, if_pos (by rw [hnext]; rfl), Reconnoiter.runTimer, htimer]
  dsimp only
  rw [recurHandler, if_neg (by simp [hfire]), scheduleNext_disabled hperiod hdisabled]
  rfl

theorem Inv.runTimer (h : s.Inv) (hget : s.checks[i]? = some e) {delay : Nat}
    (htimely : ∀ w ∈ e.fire.nextFire, e.check.disabled = false →
      (w.us + delay - e.fire.initialScheduleTime.us) % e.check.wait none + 1000 ≤ e.check.wait none)
    (hstep : s.runTimer i e delay = some t) : t.Inv := by
  have hsound := h.sound e (List.mem_of_getElem? hget)
  rcases hsound.idle_or_seated with hidle | hseated
  · -- nobody waits for the timer
    have hnot := PlacedCheck.not_scheduled hidle
    obtain ⟨st', hrun, hidle'⟩ := @runTimer_unarmed e.check e.fire hidle delay
    rw [SlotSystem.runTimer, if_neg (by rw [← PlacedCheck.scheduled, hnot]; exact Bool.false_ne_true),
      hrun] at hstep
    cases hstep
    refine h.setCheck hget ⟨hsound.steady, hsound.period_ne, hsound.minutes, .inl hidle'⟩ ?_ fun hs => ?_
    · exact (PlacedCheck.not_scheduled hidle').trans hnot.symm
    · exact absurd (hnot.symm.trans hs) Bool.false_ne_true
  · obtain ⟨w, hw, hle⟩ := hseated.armed
    cases hdisabled : e.check.disabled with
    | false =>
      obtain ⟨ev, htimer, hfire⟩ := nextFire_eq_some_iff.mp hw
      have hnow : e.fire.initialScheduleTime.us ≤ (ofUs (w.us + delay)).us := by
        rw [us_ofUs]
        omega
      obtain ⟨tgt, htgt, hsched⟩ :=
        @scheduleNext_eq e.check { e.fire with timer := none } hsound.period_ne hdisabled
        none _ hnow
      have hafter : (ofUs (w.us + delay)).us < tgt.us :=
        htgt ▸ lt_nextPoint (PeriodicCheck.wait_pos hsound.period_ne _)
      have hms : ((tgt.us - (ofUs (w.us + delay)).us) / 1000).bmod (2 ^ 32) ≠ 0 := by
        rw [htgt, us_ofUs, ne_eq, remaining_eq_zero_iff hsound.period_ne]
        exact not_lt.mpr (htimely w hw hdisabled)
      rw [SlotSystem.runTimer, release_enabled hdisabled, ite_self, Reconnoiter.runTimer, htimer] at hstep
      dsimp only at hstep
      rw [recurHandler, if_neg (by simp [hfire]), hsched] at hstep
      dsimp only at hstep
      rw [if_neg hms] at hstep
      cases hstep
      have hseated' : PlacedCheck.Seated { e with
          fire := ⟨e.fire.initialScheduleTime, some e.fire.nextEvent, some (e.fire.nextEvent, tgt),
            e.fire.nextEvent + 1⟩ } :=
        ⟨⟨tgt, nextFire_eq_some_iff.mpr ⟨e.fire.nextEvent, rfl, rfl⟩, hnow.trans hafter.le⟩,
          hseated.initial_nonneg,
          hseated.placed_nonneg, hseated.minutes⟩
      exact h.setCheck hget ⟨hsound.steady, hsound.period_ne, hsound.minutes, .inr hseated'⟩
        (hseated'.scheduled.trans hseated.scheduled.symm) fun _ => rfl
    | true =>
      rw [runTimer_disabled hw hsound.period_ne hdisabled] at hstep
      cases hstep
      exact h.release hget hseated hdisabled rfl ⟨hsound.steady, hsound.period_ne, hsound.minutes, .inl rfl⟩

theorem Inv.step {periods : Set UInt32} (hminutes : ∀ P ∈ periods, 60000 ∣ P.toNat)
    {a : SlotEvent} (h : s.Inv)
    (hallowed : s.Allowed periods a) (hstep : s.step a = some t) : t.Inv := by
  cases a with
  | add c timeout =>
    cases hstep
    obtain ⟨hsteady, hperiod, hmem⟩ := hallowed
    have hcountP : ∀ index j, (s.checks ++
      [(⟨c, timeout, ⟨ofUs 0, none, none, 0⟩, ofUs 0⟩ : PlacedCheck)]).countP
        (PlacedCheck.placedIn index j) = s.checks.countP (PlacedCheck.placedIn index j) := by
      intro index j
      rw [List.countP_append, List.countP_singleton, PlacedCheck.placedIn, PlacedCheck.not_scheduled rfl]
      rfl
    refine ⟨?_, ⟨fun j => ?_, fun k => ?_⟩, h.released, h.noWrap⟩
    · intro e he
      rcases List.mem_append.mp he with hold | hnew
      · exact h.sound e hold
      · obtain rfl := List.mem_singleton.mp hnew
        exact ⟨hsteady, hperiod, hminutes _ hmem, .inl rfl⟩
    · rw [hcountP]
      exact h.counts.count j
    · rw [hcountP]
      exact h.counts.seconds k
  | flag i disabled resolved =>
    obtain ⟨e, hget, rfl⟩ := Option.map_eq_some_iff.mp hstep
    have hsound := h.sound e (List.mem_of_getElem? hget)
    refine h.setCheck hget ⟨hsound.steady, hsound.period_ne, hsound.minutes, ?_⟩ rfl fun _ => rfl
    rcases hsound.idle_or_seated with hidle | hseated
    · exact .inl hidle
    · exact .inr ⟨hseated.armed, hseated.initial_nonneg, hseated.placed_nonneg, hseated.minutes⟩
  | initiate i start now randomOffset jitter =>
    obtain ⟨e, hget, hstep⟩ := Option.bind_eq_some_iff.mp hstep
    obtain ⟨hclock, hstart, -, -, hroom⟩ := hallowed
    exact h.initiate hget hclock (hstart e hget) hroom hstep
  | fire i delay =>
    obtain ⟨e, hget, hstep⟩ := Option.bind_eq_some_iff.mp hstep
    exact h.runTimer hget (hallowed e hget) hstep

theorem Inv.empty (priorityScheduling : Bool) : (SlotSystem.empty priorityScheduling).Inv :=
  ⟨by simp [SlotSystem.empty], ⟨fun _ => rfl, fun _ =>
    rfl⟩, by simp [SlotSystem.empty], by simp [SlotSystem.empty]⟩

end SlotSystem

end Invariant

section Failure

theorem leastBusy_zero (i : Int) (places : List Int) : leastBusy (fun _ => 0) (i :: places) = i := by
  have hrest : ∀ l : List Int, l.foldl (fun least j => if (0 : UInt16) <
    least.2 then (j, (0 : UInt16)) else least)
      ((i, 0) : Int × UInt16) = (i, 0) := by
    intro l
    induction l with
    | nil => rfl
    | cons j l ih => exact ih
  exact congrArg Prod.fst (hrest places)

def minuteEnd : ClockTime := ofMillis (71583 * 60000 + 59999)

theorem findSmallest_empty {P : UInt32} (h : ¬ 60000 ∣ P.toNat) (priorityScheduling : Bool) (timeout : Int)
    (jitter : Nat) :
    findSmallest ⟨fun _ => 0, fun _ => 0⟩ priorityScheduling (minuteEnd.sec + 1)
      (ofMillis P.toNat) timeout 0 jitter =
      jitter := by
  have hmini : ∀ n : Nat, leastBusy (fun _ => 0)
    ((List.range n).map fun i : Nat => (i + (minuteEnd.sec + 1)).tmod 60)
      = 0 := by
    intro n
    cases n with
    | zero => rfl
    | succ n =>
      rw [List.range_succ_eq_map, List.map_cons, leastBusy_zero]
      rfl
  have hnot : ¬ (priorityScheduling = true ∧ (ofMillis P.toNat).sec.tmod 60 = 0 ∧
    (ofMillis P.toNat).usec = 0) := by
    rintro ⟨-, hsec, husec⟩
    dsimp only [ofMillis] at hsec husec
    rw [Int.tmod_eq_emod_of_nonneg (by omega)] at hsec
    omega
  unfold findSmallest
  dsimp only
  rw [if_neg hnot, hmini, List.range_succ_eq_map, List.map_cons, leastBusy_zero]
  simp

theorem exists_release (priorityScheduling : Bool) {periods : Set UInt32} {c : PeriodicCheck}
    (hsteady : c.transient = false) (henabled : c.disabled = false) (hperiod : c.period ≠ 0)
    (hmem : c.period ∈ periods) {start : ClockTime} (hclock : c.periodTime.us ≤ start.us) {jitter : Nat}
    (hjitter : jitter < 20) :
    ∃ events t, Run SlotSystem.step (SlotSystem.Allowed periods) (.empty priorityScheduling) events t ∧
      ∃ r ∈ t.releases, (r.released, r.placed) = fakeLastCheck c (findSmallest ⟨fun _ => 0, fun _ => 0⟩
        priorityScheduling (start.sec + 1) c.periodTime 0 0 jitter).toNat start := by
  set balanceMs := (findSmallest ⟨fun _ => 0, fun _ => 0⟩ priorityScheduling (start.sec + 1) c.periodTime 0 0
    jitter).toNat with hbalance
  have hle := us_fakeLastCheck_le c balanceMs start
  obtain ⟨tgt, htgt, hsched⟩ := @scheduleNext_eq c ⟨ofUs 0, none, none, 0⟩ hperiod henabled
    (some (fakeLastCheck c balanceMs start).1) start hle
  have hinitiate : initiateCheck c ⟨ofUs 0, none, none, 0⟩ balanceMs start start =
      .ok ⟨(fakeLastCheck c balanceMs start).1, some 0, some (0, tgt), 1⟩ := by
    rw [initiateCheck, if_neg (by simp), hsched]
    rfl
  set e : PlacedCheck := ⟨c, 0, ⟨ofUs 0, none, none, 0⟩, ofUs 0⟩
  set e₁ : PlacedCheck := { e with placed := (fakeLastCheck c balanceMs start).2 }
  set e₂ : PlacedCheck := { e₁ with fire := ⟨(fakeLastCheck c balanceMs start).1, some 0, some (0, tgt), 1⟩ }
  have hplace : SlotSystem.step { SlotSystem.empty priorityScheduling with checks := [e] }
      (.initiate 0 start start 0 jitter) =
      some { SlotSystem.empty priorityScheduling with
        slots := Slots.adjustTv ⟨fun _ => 0, fun _ => 0⟩ e₁.placed 1
        checks := [e₂] } := by
    change SlotSystem.initiate _ 0 e start start 0 jitter = _
    rw [SlotSystem.initiate, if_neg (by simp [e])]
    dsimp only
    change Option.map _ (initiateCheck c _ balanceMs start start).toOption = _
    rw [hinitiate]
    change some (((SlotSystem.place _ e₁).release e₁ _).setCheck 0 e₂) = _
    rw [SlotSystem.release_enabled henabled, SlotSystem.place_steady hsteady]
    rfl
  set e₃ : PlacedCheck := { e₂ with check := { c with disabled := true } } with he₃
  have hnext : e₃.fire.nextFire = some tgt := nextFire_eq_some_iff.mpr ⟨0, rfl, rfl⟩
  refine ⟨[.add c 0, .initiate 0 start start 0 jitter, .flag 0 true c.resolved, .fire 0 0], _,
    .cons ⟨hsteady, hperiod, hmem⟩ rfl (.cons ⟨le_rfl, ?_, by decide, hjitter, ?_⟩ hplace
      (.cons trivial rfl (.cons ?_ (SlotSystem.runTimer_disabled hnext hperiod rfl 0) (.nil _)))), ?_⟩
  · rintro e' ⟨⟩
    exact hclock
  · exact lt_of_le_of_lt List.countP_le_length (show 1 < 65535 by decide)
  · rintro e' ⟨⟩ w - henabled'
    cases henabled'
  · rw [SlotSystem.release, if_pos ⟨hperiod, rfl, hsteady⟩]
    exact ⟨_, List.mem_cons_self, rfl⟩

theorem slotIndex_minuteEnd {c : PeriodicCheck} (hsteady : c.transient = false)
    (h : ¬ 60000 ∣ c.period.toNat) :
    ∃ jitter < 20, slotIndex (fakeLastCheck c jitter minuteEnd).1 ≠ slotIndex
      (fakeLastCheck c jitter minuteEnd).2 := by
  have hperiod : c.period ≠ 0 := by
    intro h0
    rw [h0] at h
    exact h (dvd_zero _)
  have hlt := c.period.toNat_lt
  have hpos := PeriodicCheck.step_pos hperiod
  have hclock : c.periodTime.us ≤ minuteEnd.us := by
    rw [PeriodicCheck.periodTime, minuteEnd, us_ofMillis, us_ofMillis]
    omega
  refine ⟨if 60000 ≤ c.period.toNat ∧ c.period.toNat % 60000 < 20 then 19 else 0, by split_ifs <;> decide, ?_⟩
  set jitter := if 60000 ≤ c.period.toNat ∧ c.period.toNat % 60000 < 20 then 19 else 0 with hjitter
  obtain ⟨hinitial, hplaced⟩ := fakeLastCheck_nonneg hsteady hperiod jitter hclock
  obtain ⟨⟨k, hk⟩, hnear⟩ := fakeLastCheck_grid hsteady hperiod jitter minuteEnd
  have hle := us_fakeLastCheck_le c jitter minuteEnd
  have hplacedMs : (fakeLastCheck c jitter minuteEnd).2.us =
      ((71583 * 60000 + 59999 - c.period.toNat) / 60000 * 60000 + jitter) * 1000 := by
    have hus := us_subTimeval minuteEnd c.periodTime
    have hnonneg := (subTimeval minuteEnd c.periodTime).usec_nonneg
    have hless := (subTimeval minuteEnd c.periodTime).usec_lt
    rw [us_placed hsteady hperiod]
    rw [us, PeriodicCheck.periodTime, minuteEnd, us_ofMillis, us_ofMillis] at hus
    rw [PeriodicCheck.periodTime, minuteEnd] at hnonneg hless ⊢
    rw [Int.tdiv_eq_ediv_of_nonneg (by omega)]
    omega
  have hend : minuteEnd.us = (71583 * 60000 + 59999) * 1000 := us_ofMillis _
  have hone : 1 ≤ k → (c.period.toNat : Int) ≤ k * c.period.toNat := fun h1 => by nlinarith
  have htwo : 2 ≤ k → 2 * (c.period.toNat : Int) ≤ k * c.period.toNat := fun h2 => by nlinarith
  have hzero : k ≤ 0 → k * c.period.toNat ≤ 0 := fun h0 => by nlinarith
  rw [PeriodicCheck.step, ← mul_assoc] at hk
  rw [PeriodicCheck.step] at hnear hpos
  rw [slotIndex, slotIndex, offsetMs_eq hinitial, offsetMs_eq hplaced, Int.tdiv_eq_ediv_of_nonneg (by omega),
    Int.tdiv_eq_ediv_of_nonneg (by omega)]
  generalize (fakeLastCheck c jitter minuteEnd).1.us = first at *
  generalize (fakeLastCheck c jitter minuteEnd).2.us = placed at *
  generalize hy : k * (c.period.toNat : Int) = y at *
  generalize c.period.toNat = P at *
  by_cases hbig : 60000 ≤ P
  · -- the check is counted from the point one period after its place
    have hk1 : k = 1 := by
      by_contra hne
      rcases Int.lt_or_gt_of_ne hne with hless | hmore
      · have hy0 := hzero (by omega)
        split_ifs at hjitter <;> omega
      · have hy2 := htwo (by omega)
        split_ifs at hjitter <;> omega
    rw [hk1, one_mul] at hy
    split_ifs at hjitter <;> omega
  · have hk1 : 1 ≤ k := by
      by_contra hless
      have hy0 := hzero (by omega)
      split_ifs at hjitter <;> omega
    have hy1 := hone hk1
    split_ifs at hjitter <;> omega

end Failure

/-- The counts are right in every run exactly when all periods are whole minutes. -/
theorem slots_balanced_iff (priorityScheduling : Bool) (periods : Set UInt32) :
    (∀ events s, Run SlotSystem.step (SlotSystem.Allowed periods)
      (.empty priorityScheduling) events s → s.Balanced) ↔
      ∀ P ∈ periods, 60000 ∣ P.toNat := by
  constructor
  · intro hall P hP
    by_contra hminutes
    set c : PeriodicCheck := ⟨P, false, false, true, false⟩
    have hperiod : c.period ≠ 0 := by
      intro h0
      rw [show P = 0 from h0] at hminutes
      exact hminutes (dvd_zero _)
    have hclock : c.periodTime.us ≤ minuteEnd.us := by
      have hlt := P.toNat_lt
      rw [PeriodicCheck.periodTime, minuteEnd, us_ofMillis, us_ofMillis]
      change (P.toNat : Int) * 1000 ≤ _
      omega
    obtain ⟨jitter, hjitter, hne⟩ := @slotIndex_minuteEnd c rfl hminutes
    obtain ⟨events, t, hrun, r, hr, heq⟩ :=
      exists_release priorityScheduling rfl rfl hperiod hP hclock hjitter
    have hbalance : findSmallest ⟨fun _ => 0, fun _ => 0⟩ priorityScheduling
      (minuteEnd.sec + 1) c.periodTime 0 0 jitter
        = jitter := findSmallest_empty hminutes priorityScheduling 0 jitter
    rw [hbalance, Int.toNat_natCast] at heq
    rw [← heq] at hne
    exact hne ((hall events t hrun).released r hr).1
  · intro hminutes events s hrun
    exact (hrun.invariant (fun _ _ _ hs hok hstep => hs.step hminutes hok hstep)
      (SlotSystem.Inv.empty _)).balanced

def tenSecondEvents : List SlotEvent :=
  [.add ⟨10000, false, false, true, false⟩ 5000,
    .initiate 0 ⟨1700000039, 999000, by decide, by decide⟩ ⟨1700000039, 999000, by decide, by decide⟩ 0 0,
    .flag 0 true true, .fire 0 0]

theorem slot_released_elsewhere :
    ∃ s, Run SlotSystem.step (SlotSystem.Allowed {10000}) (.empty false) tenSecondEvents s ∧
    s.releases.map (fun r => (slotIndex r.placed, slotIndex r.released)) = [(0, 2500)] ∧
    s.slots.count 0 = 1 ∧ s.slots.count 2500 = 65535 ∧
      s.checks.countP PlacedCheck.scheduled = 0 ∧ ¬ s.Balanced := by
  have hrun : (Run.execute SlotSystem.step (fun s a => decide (s.Allowed {10000} a))
    (.empty false) tenSecondEvents).map
      (fun s => (s.releases.map fun r => (slotIndex r.placed, slotIndex r.released), s.slots.count 0,
        s.slots.count 2500, s.checks.countP PlacedCheck.scheduled)) =
          some ([(0, 2500)], 1, 65535, 0) := by decide +kernel
  obtain ⟨s, hs, heq⟩ := Option.map_eq_some_iff.mp hrun
  simp only [Prod.mk.injEq] at heq
  obtain ⟨hreleases, hzero, hwrap, hnone⟩ := heq
  refine ⟨s, Run.of_execute (fun s a h => of_decide_eq_true h) hs, hreleases,
    hzero, hwrap, hnone, fun hbalanced => ?_⟩
  have hcount := hbalanced.count 0
  rw [hzero, List.countP_eq_zero.mpr] at hcount
  · cases hcount
  · intro e he hplaced
    exact List.countP_eq_zero.mp hnone e he (Bool.and_eq_true_iff.mp hplaced).1

end Reconnoiter
