import Reconnoiter.ClockTime

/-! Periodic checks: the time from which a check's firing is counted, and the timer that is set again
each time the check fires. -/

namespace Reconnoiter

open ClockTime

structure PeriodicCheck where
  period : UInt32
  transient : Bool
  /-- disabled or killed -/
  disabled : Bool
  resolved : Bool
  shouldResolve : Bool

/-- `timer` is the event that the event loop holds for the check, `fireEvent` the one that the check
knows of. -/
structure FireState where
  initialScheduleTime : ClockTime
  fireEvent : Option Nat
  timer : Option (Nat × ClockTime)
  nextEvent : Nat
deriving DecidableEq

inductive ScheduleFault where
  | causeGiven
  | timeBackwards
  | targetNotAfter
deriving DecidableEq

section Schedule

def backLoop (now : ClockTime) {period : ClockTime} (hp : 0 < period.us) (lc : ClockTime) : ClockTime :=
  if compareTimeval now (subTimeval lc period) < 0 then backLoop now hp (subTimeval lc period)
  else subTimeval lc period
termination_by (lc.us - now.us).toNat
decreasing_by
  rename_i h
  rw [compareTimeval_neg_iff] at h
  rw [us_subTimeval] at h ⊢
  omega

def forwardLoop (now : ClockTime) {period : ClockTime} (hp : 0 < period.us) (lc : ClockTime) : ClockTime :=
  if compareTimeval now (addTimeval lc period) < 0 then lc else forwardLoop now hp (addTimeval lc period)
termination_by (now.us - lc.us).toNat
decreasing_by
  rename_i h
  rw [compareTimeval_neg_iff] at h
  rw [us_addTimeval] at h ⊢
  omega

def PeriodicCheck.periodTime (c : PeriodicCheck) : ClockTime := ofMillis c.period.toNat

theorem PeriodicCheck.periodTime_pos {c : PeriodicCheck} (h : c.period ≠ 0) : 0 < c.periodTime.us := by
  have hne : c.period.toNat ≠ 0 := fun h0 => h (UInt32.toNat_inj.mp h0)
  rw [periodTime, us_ofMillis]
  omega

/-- `noit_check_fake_last_check`; `balanceMs` is the place in the minute that the slots have room at.
The second time is the one that the slots count the check under. -/
def fakeLastCheck (c : PeriodicCheck) (balanceMs : Nat) (now : ClockTime) : ClockTime × ClockTime :=
  let lc := subTimeval now c.periodTime
  if h : c.transient = false ∧ c.period ≠ 0 then
    let lc : ClockTime :=
      ⟨lc.sec.tdiv 60 * 60 + balanceMs / 1000, balanceMs % 1000 * 1000, by omega, by omega⟩
    if compareTimeval now lc < 0 then (backLoop now (PeriodicCheck.periodTime_pos h.2) lc, lc)
    else (forwardLoop now (PeriodicCheck.periodTime_pos h.2) lc, lc)
  else (lc, lc)

/-- `noit_check_schedule_next`; the value returned is an `int`. Without a last check the time is counted
from the one of the first call. -/
def scheduleNext (c : PeriodicCheck) (st : FireState) (lastCheck : Option ClockTime)
    (now : ClockTime) (cause : Bool) :
    Except ScheduleFault (FireState × Int) :=
  if cause then .error .causeGiven
  else if c.period = 0 then .ok (st, 0)
  else if c.disabled then .ok ({ st with initialScheduleTime := ofUs 0 }, 0)
  else
    let last := lastCheck.getD st.initialScheduleTime
    let period :=
      if lastCheck = none ∧ c.resolved = false ∧ c.shouldResolve ∧ 1000 < c.period then ofMillis 1000
      else c.periodTime
    if compareTimeval now last < 0 then .error .timeBackwards
    else
      let diffms := (subTimeval now last).millis
      let offsetms := (diffms / period.millis + 1) * period.millis
      let tgt := addTimeval last (ofMillis offsetms)
      if compareTimeval tgt now ≤ 0 then .error .targetNotAfter
      else
        .ok (⟨last, some st.nextEvent, some (st.nextEvent, tgt), st.nextEvent + 1⟩,
          (subTimeval tgt now).millis.bmod (2 ^ 32))

def recurHandler (c : PeriodicCheck) (st : FireState) (e : Nat) (now : ClockTime) :
    Except ScheduleFault (FireState × Bool) :=
  if st.fireEvent ≠ some e then .ok (st, false)
  else
    match scheduleNext c st none now false with
    | .error fault => .error fault
    | .ok (st, ms) => .ok (if ms = 0 then { st with fireEvent := none } else st, c.resolved)

/-- The macro `INITIATE_CHECK` for a check that is to be run again and again; the clock is read twice. -/
def initiateCheck (c : PeriodicCheck) (st : FireState) (balanceMs : Nat) (start now : ClockTime) :
    Except ScheduleFault FireState :=
  if st.fireEvent.isSome then .ok st
  else Prod.fst <$> scheduleNext c st (some (fakeLastCheck c balanceMs start).1) now false

def runTimer (c : PeriodicCheck) (st : FireState) (delay : Nat) : Except ScheduleFault FireState :=
  match st.timer with
  | none => .ok st
  | some (e, whence) => Prod.fst <$> recurHandler c { st with timer := none } e (ofUs (whence.us + delay))

def FireState.nextFire (st : FireState) : Option ClockTime :=
  st.timer.bind fun (e, whence) => if st.fireEvent = some e then some whence else none

end Schedule

section Firing

variable {c : PeriodicCheck} {st : FireState}

theorem us_backLoop_le (now : ClockTime) {period : ClockTime} (hp : 0 < period.us) (lc : ClockTime) :
    (backLoop now hp lc).us ≤ now.us := by
  fun_induction backLoop now hp lc with
  | case1 lc h ih => exact ih
  | case2 lc h =>
    rw [compareTimeval_neg_iff] at h
    omega

theorem us_forwardLoop_le (now : ClockTime) {period : ClockTime} (hp : 0 < period.us) {lc : ClockTime}
    (hle : lc.us ≤ now.us) : (forwardLoop now hp lc).us ≤ now.us := by
  fun_induction forwardLoop now hp lc with
  | case1 lc h => exact hle
  | case2 lc h ih =>
    rw [compareTimeval_neg_iff] at h
    exact ih (by omega)

theorem us_fakeLastCheck_le (c : PeriodicCheck) (balanceMs : Nat) (start : ClockTime) :
    (fakeLastCheck c balanceMs start).1.us ≤ start.us := by
  unfold fakeLastCheck
  split_ifs with h
  · dsimp only
    split_ifs with hafter
    · exact us_backLoop_le _ _ _
    · rw [compareTimeval_neg_iff] at hafter
      exact us_forwardLoop_le _ _ (by omega)
  · dsimp only
    rw [us_subTimeval, PeriodicCheck.periodTime, us_ofMillis]
    omega

def PeriodicCheck.step (c : PeriodicCheck) : Int := c.period.toNat * 1000

theorem PeriodicCheck.step_pos (h : c.period ≠ 0) : 0 < c.step := by
  have hpos := PeriodicCheck.periodTime_pos h
  rwa [periodTime, us_ofMillis] at hpos

def PeriodicCheck.wait (c : PeriodicCheck) (lastCheck : Option ClockTime) : Int :=
  if lastCheck = none ∧ c.resolved = false ∧ c.shouldResolve ∧ 1000 < c.period then 1000000 else c.step

theorem PeriodicCheck.wait_resolved (hresolved : c.resolved = true) (lastCheck : Option ClockTime) :
    c.wait lastCheck = c.step :=
  if_neg fun h => by simp [hresolved] at h

theorem PeriodicCheck.wait_pos (hperiod : c.period ≠ 0) (lastCheck : Option ClockTime) :
    0 < c.wait lastCheck := by
  unfold wait
  split_ifs
  · decide
  · exact PeriodicCheck.step_pos hperiod

theorem scheduleNext_eq (hperiod : c.period ≠ 0) (henabled : c.disabled = false)
    {lastCheck : Option ClockTime} {now : ClockTime}
    (hle : (lastCheck.getD st.initialScheduleTime).us ≤ now.us) :
    ∃ tgt : ClockTime, tgt.us = nextPoint (lastCheck.getD st.initialScheduleTime).us
      (c.wait lastCheck) now.us ∧
      scheduleNext c st lastCheck now false =
        .ok (⟨lastCheck.getD st.initialScheduleTime, some st.nextEvent,
          some (st.nextEvent, tgt), st.nextEvent + 1⟩,
          ((tgt.us - now.us) / 1000).bmod (2 ^ 32)) := by
  set last := lastCheck.getD st.initialScheduleTime
  set period := if lastCheck = none ∧ c.resolved = false ∧ c.shouldResolve ∧
    1000 < c.period then ofMillis 1000
    else c.periodTime with hperiodTime
  have hus : period.us = c.wait lastCheck := by
    rw [hperiodTime, PeriodicCheck.wait, apply_ite ClockTime.us, PeriodicCheck.periodTime,
      us_ofMillis, us_ofMillis]
    rfl
  have hmillis : period.millis * 1000 = c.wait lastCheck := by
    rw [← hus, hperiodTime]
    split_ifs
    · rfl
    · rw [millis_eq, PeriodicCheck.periodTime, us_ofMillis]
      omega
  have hback : ¬ compareTimeval now last < 0 := by
    rw [compareTimeval_neg_iff]
    omega
  set tgt := addTimeval last (ofMillis
    (((subTimeval now last).millis / period.millis + 1) * period.millis)) with htgt
  have hpoint : tgt.us = nextPoint last.us (c.wait lastCheck) now.us := by
    rw [htgt, us_addTimeval, us_ofMillis, millis_eq, us_subTimeval, nextPoint,
      Int.ediv_ediv_of_nonneg (by decide), Int.mul_assoc, Int.mul_comm 1000, hmillis]
  have hafter : ¬ compareTimeval tgt now ≤ 0 := by
    rw [not_le, compareTimeval_pos_iff, hpoint]
    exact lt_nextPoint (PeriodicCheck.wait_pos hperiod lastCheck)
  refine ⟨tgt, hpoint, ?_⟩
  have hms : (subTimeval tgt now).millis = (tgt.us - now.us) / 1000 := by rw [millis_eq, us_subTimeval]
  rw [scheduleNext, if_neg Bool.false_ne_true, if_neg hperiod, if_neg (by simp [henabled])]
  dsimp only
  rw [← hperiodTime, if_neg hback, if_neg hafter, ← hms]

structure Armed (c : PeriodicCheck) (st : FireState) (w : ClockTime) : Prop where
  timer : ∃ e, st.timer = some (e, w) ∧ st.fireEvent = some e
  grid : ∃ m : Int, w.us = st.initialScheduleTime.us + m * c.step
  after : st.initialScheduleTime.us ≤ w.us

theorem Armed.nextFire {w : ClockTime} (h : Armed c st w) : st.nextFire = some w := by
  obtain ⟨e, htimer, hfire⟩ := h.timer
  simp [FireState.nextFire, htimer, hfire]

theorem armed_schedule {last tgt now : ClockTime} (hperiod : c.period ≠ 0) (hle : last.us ≤ now.us)
    (htgt : tgt.us = nextPoint last.us c.step now.us) (e : Nat) :
    Armed c ⟨last, some e, some (e, tgt), e + 1⟩ tgt := by
  refine ⟨⟨e, rfl, rfl⟩, ⟨(now.us - last.us) / c.step + 1, htgt⟩, ?_⟩
  have hlt : now.us < nextPoint last.us c.step now.us := lt_nextPoint (PeriodicCheck.step_pos hperiod)
  dsimp only
  omega

theorem remaining_eq_zero_iff (hperiod : c.period ≠ 0) (lastCheck : Option ClockTime) (last now : Int) :
    ((nextPoint last (c.wait lastCheck) now - now) / 1000).bmod (2 ^ 32) = 0 ↔
      c.wait lastCheck < (now - last) % c.wait lastCheck + 1000 := by
  have hpos := PeriodicCheck.wait_pos hperiod lastCheck
  have hlt : now < nextPoint last (c.wait lastCheck) now := lt_nextPoint hpos
  have hle : nextPoint last (c.wait lastCheck) now ≤ now + c.wait lastCheck := nextPoint_le hpos
  have hsub := nextPoint_sub_now last (c.wait lastCheck) now
  have hbound : c.wait lastCheck < 2 ^ 32 * 1000 := by
    have hperiodLt := c.period.toNat_lt
    unfold PeriodicCheck.wait PeriodicCheck.step
    split_ifs <;> omega
  rw [← Int.dvd_iff_bmod_eq_zero]
  constructor
  · intro hdvd
    obtain ⟨k, hk⟩ := hdvd
    omega
  · intro hless
    have hzero : (nextPoint last (c.wait lastCheck) now - now) / 1000 = 0 := by omega
    rw [hzero]
    exact dvd_zero _

theorem runTimer_armed (hperiod : c.period ≠ 0) (henabled : c.disabled = false)
    (hresolved : c.resolved = true) {w : ClockTime} (h : Armed c st w) (delay : Nat) :
    ∃ (st' : FireState) (w' : ClockTime), Armed c st' w' ∧
      st'.initialScheduleTime = st.initialScheduleTime ∧
      w'.us = nextPoint st.initialScheduleTime.us c.step (w.us + delay) ∧
      runTimer c st delay = .ok (if c.step < delay % c.step +
        1000 then { st' with fireEvent := none } else st') := by
  obtain ⟨e, htimer, hfire⟩ := h.timer
  obtain ⟨m, hm⟩ := h.grid
  have hafter := h.after
  have hle : ((none : Option ClockTime).getD st.initialScheduleTime).us ≤ (ofUs (w.us + delay)).us := by
    rw [us_ofUs, Option.getD_none]
    omega
  obtain ⟨tgt, htgt, hsched⟩ := @scheduleNext_eq c { st with timer := none } hperiod henabled none _ hle
  rw [PeriodicCheck.wait_resolved hresolved] at htgt
  have harmed : Armed c ⟨st.initialScheduleTime, some st.nextEvent,
    some (st.nextEvent, tgt), st.nextEvent + 1⟩ tgt :=
    armed_schedule hperiod hle htgt st.nextEvent
  rw [us_ofUs] at htgt hsched
  refine ⟨_, tgt, harmed, rfl, htgt, ?_⟩
  have hdelay : (w.us + delay - st.initialScheduleTime.us) % c.step = delay % c.step := by
    have hsum : w.us + delay - st.initialScheduleTime.us = delay + m * c.step := by
      rw [hm]
      ring
    rw [hsum, Int.add_mul_emod_self_right]
  have hzero := remaining_eq_zero_iff hperiod none st.initialScheduleTime.us (w.us + delay)
  rw [PeriodicCheck.wait_resolved hresolved, hdelay,
    ← Option.getD_none (a := st.initialScheduleTime), ← htgt] at hzero
  rw [runTimer, htimer]
  dsimp only
  rw [recurHandler, if_neg (by simp [hfire]), hsched]
  exact congrArg Except.ok (if_congr hzero rfl rfl)

theorem runTimer_unarmed (h : st.fireEvent = none) (delay : Nat) :
    ∃ st', runTimer c st delay = .ok st' ∧ st'.fireEvent = none := by
  unfold runTimer
  split
  · exact ⟨st, rfl, h⟩
  case h_2 e whence htimer =>
    refine ⟨{ st with timer := none }, ?_, h⟩
    rw [recurHandler, if_pos (by simp [h])]
    rfl

def runTimers (c : PeriodicCheck) (st : FireState) (delays : List Nat) : Except ScheduleFault FireState :=
  delays.foldlM (runTimer c) st

/-- Each time the handler is run, `delay` microseconds after the time `w` at which the check fires, the
check fires next at the first point after that of those that are whole periods after `first`. -/
def FiresOnGrid (c : PeriodicCheck) (first : ClockTime) : FireState → List Nat → Prop
  | _, [] => True
  | st, delay :: delays =>
    ∃ w st' w', st.nextFire = some w ∧ runTimer c st delay = .ok st' ∧ st'.nextFire = some w' ∧
      IsLeast {t | ∃ k : ℕ, t = first.us + k * c.step ∧ w.us + delay < t} w'.us ∧
        FiresOnGrid c first st' delays

theorem runTimers_ok (hperiod : c.period ≠ 0) (henabled : c.disabled = false) (hresolved : c.resolved = true)
    (delays : List Nat) (h : (∃ w, Armed c st w) ∨ st.fireEvent = none) :
    ∃ st', runTimers c st delays = .ok st' := by
  induction delays generalizing st with
  | nil => exact ⟨st, rfl⟩
  | cons delay delays ih =>
    have hstep : ∃ st', runTimer c st delay = .ok st' ∧ ((∃ w, Armed c st' w) ∨ st'.fireEvent = none) := by
      rcases h with ⟨w, harmed⟩ | hnone
      · obtain ⟨st', w', harmed', -, -, hrun⟩ := runTimer_armed hperiod henabled hresolved harmed delay
        refine ⟨_, hrun, ?_⟩
        split_ifs
        · exact .inr rfl
        · exact .inl ⟨w', harmed'⟩
      · obtain ⟨st', hrun, hnone'⟩ := runTimer_unarmed hnone delay
        exact ⟨st', hrun, .inr hnone'⟩
    obtain ⟨st', hrun, hst'⟩ := hstep
    obtain ⟨st'', hrest⟩ := ih hst'
    exact ⟨st'', by rw [runTimers, List.foldlM_cons, hrun]; exact hrest⟩

theorem firesOnGrid_iff (hperiod : c.period ≠ 0) (henabled : c.disabled = false)
    (hresolved : c.resolved = true) {first w : ClockTime} (h : Armed c st w) {m : Int}
    (hfirst : first.us = st.initialScheduleTime.us + m * c.step) (hle : first.us ≤ w.us) (delays : List Nat) :
    FiresOnGrid c first st delays ↔ ∀ delay ∈ delays, (delay : Int) % c.step + 1000 ≤ c.step := by
  induction delays generalizing st w with
  | nil => exact iff_of_true trivial (by simp)
  | cons delay delays ih =>
    obtain ⟨st', w', harmed, hinitial, hw', hrun⟩ := runTimer_armed hperiod henabled hresolved h delay
    have hstep := PeriodicCheck.step_pos hperiod
    rw [List.forall_mem_cons, FiresOnGrid]
    by_cases hnear : c.step < delay % c.step + 1000
    · -- the timer is set, but the check does not know of it
      rw [if_pos hnear] at hrun
      refine iff_of_false ?_ (fun hall => by have := hall.1; omega)
      rintro ⟨-, st'', w'', -, hrun', hnext, -⟩
      rw [hrun] at hrun'
      cases hrun'
      obtain ⟨e, htimer, -⟩ := harmed.timer
      simp [FireState.nextFire, htimer] at hnext
    · rw [if_neg hnear] at hrun
      have hleast := nextPoint_isLeast hstep hfirst (show first.us ≤ w.us + delay by omega)
      rw [← hw'] at hleast
      have hlt : first.us ≤ w'.us := by
        obtain ⟨k, hk, hafter⟩ := hleast.1
        omega
      have hrest := ih harmed (hinitial ▸ hfirst) hlt
      rw [← hrest]
      constructor
      · rintro ⟨-, st'', -, -, hrun', -, -, hfires⟩
        rw [hrun] at hrun'
        cases hrun'
        exact ⟨by omega, hfires⟩
      · rintro ⟨-, hfires⟩
        exact ⟨w, st', w', h.nextFire, hrun, harmed.nextFire, hleast, hfires⟩

/-- A check that is initiated fires first after that and at most a period later, and neither the
assertions nor the abort is ever reached. It goes on to fire at the points of its grid exactly as long
as no run of the handler is late by less than a millisecond short of a whole number of periods. -/
theorem periodic_firing_iff (c : PeriodicCheck) (hperiod : c.period ≠ 0) (henabled : c.disabled = false)
    (hresolved : c.resolved = true) (st : FireState) (hidle : st.fireEvent = none) (balanceMs : Nat)
    (start now : ClockTime) (hclock : start.us ≤ now.us) :
    ∃ st₀ first, initiateCheck c st balanceMs start now = .ok st₀ ∧ st₀.nextFire = some first ∧
      now.us < first.us ∧ first.us ≤ now.us + c.period.toNat * 1000 ∧
      ∀ delays : List Nat, (∃ st', runTimers c st₀ delays = .ok st') ∧
        (FiresOnGrid c first st₀ delays ↔
          ∀ delay ∈ delays, delay % (c.period.toNat * 1000) ≤ c.period.toNat * 1000 - 1000) := by
  have hlast := us_fakeLastCheck_le c balanceMs start
  obtain ⟨first, hfirst, hsched⟩ := @scheduleNext_eq c st hperiod henabled
    (some (fakeLastCheck c balanceMs start).1) now (hlast.trans hclock)
  have harmed := armed_schedule hperiod (hlast.trans hclock) hfirst st.nextEvent
  have hstep := PeriodicCheck.step_pos hperiod
  refine ⟨_, first, ?_, harmed.nextFire, ?_, ?_, fun delays => ⟨?_, ?_⟩⟩
  · rw [initiateCheck, if_neg (by simp [hidle]), hsched]
    rfl
  · rw [hfirst]
    exact lt_nextPoint hstep
  · rw [hfirst]
    exact nextPoint_le hstep
  · exact runTimers_ok hperiod henabled hresolved delays (.inl ⟨first, harmed⟩)
  · rw [firesOnGrid_iff hperiod henabled hresolved harmed hfirst le_rfl]
    apply forall₂_congr
    intro delay _
    have hcast : ((delay % (c.period.toNat * 1000) : Nat) : Int) = delay % (c.period.toNat * 1000) := by
      push_cast; rfl
    rw [PeriodicCheck.step] at hstep ⊢
    omega

end Firing

def secondCheck : PeriodicCheck := ⟨1000, false, false, true, false⟩

def idleFire : FireState := ⟨ofUs 0, none, none, 0⟩

theorem periodic_firing_second :
    secondCheck.period ≠ 0 ∧ ∃ st₀ first,
      initiateCheck secondCheck idleFire 0 (ofUs 61000000) (ofUs 61000000) = .ok st₀ ∧
        st₀.nextFire = some first ∧
        (ofUs 61000000).us < first.us ∧ FiresOnGrid secondCheck first st₀ [250, 1999000] := by
  obtain ⟨st₀, first, hinit, hnext, hlt, -, hall⟩ :=
    periodic_firing_iff secondCheck (by decide) rfl rfl idleFire rfl 0
    (ofUs 61000000) (ofUs 61000000) le_rfl
  exact ⟨by decide, st₀, first, hinit, hnext, hlt, (hall _).2.mpr (by decide)⟩

theorem late_handler_stops_firing :
    ∃ st₀ st₁ st₂, initiateCheck secondCheck idleFire 0 (ofUs 61000000) (ofUs 61000000) = .ok st₀ ∧
      st₀.nextFire = some (ofUs 62000000) ∧ runTimer secondCheck st₀ 999500 = .ok st₁ ∧
      st₁.timer = some (1, ofUs 63000000) ∧ st₁.nextFire = none ∧
      runTimer secondCheck st₁ 0 = .ok st₂ ∧ st₂.timer = none ∧ st₂.fireEvent = none := by
  have hinit : initiateCheck secondCheck idleFire 0 (ofUs 61000000) (ofUs 61000000) =
      .ok ⟨ofUs 61000000, some 0, some (0, ofUs 62000000), 1⟩ := by decide +kernel
  have hlate : runTimer secondCheck ⟨ofUs 61000000, some 0, some (0, ofUs 62000000), 1⟩ 999500 =
      .ok ⟨ofUs 61000000, none, some (1, ofUs 63000000), 2⟩ := by decide +kernel
  have hignored : runTimer secondCheck ⟨ofUs 61000000, none, some (1, ofUs 63000000), 2⟩ 0 =
      .ok ⟨ofUs 61000000, none, none, 2⟩ := by decide +kernel
  exact ⟨_, _, _, hinit, rfl, hlate, rfl, rfl, hignored, rfl, rfl⟩

end Reconnoiter
