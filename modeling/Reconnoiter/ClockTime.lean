import Mathlib

/-! Times in seconds and microseconds, with the sums, differences and comparisons of struct timeval, and the
points of a grid in time. -/

namespace Reconnoiter

@[ext]
structure ClockTime where
  sec : Int
  usec : Int
  usec_nonneg : 0 ≤ usec
  usec_lt : usec < 1000000
deriving DecidableEq

namespace ClockTime

def us (t : ClockTime) : Int := t.sec * 1000000 + t.usec

def ofUs (z : Int) : ClockTime := ⟨z / 1000000, z % 1000000, by omega, by omega⟩

def ofMillis (ms : Int) : ClockTime := ⟨ms / 1000, ms % 1000 * 1000, by omega, by omega⟩

def millis (t : ClockTime) : Int := t.sec * 1000 + t.usec / 1000

def addTimeval (a b : ClockTime) : ClockTime :=
  if h : 1000000 ≤ a.usec + b.usec then
    ⟨a.sec + b.sec + 1, a.usec + b.usec - 1000000, by omega, by have := a.usec_lt; have := b.usec_lt; omega⟩
  else ⟨a.sec + b.sec, a.usec + b.usec, by have := a.usec_nonneg; have := b.usec_nonneg; omega, by omega⟩

def subTimeval (a b : ClockTime) : ClockTime :=
  if h : a.usec < b.usec then
    ⟨a.sec - b.sec - 1, a.usec - b.usec + 1000000,
      by have := a.usec_nonneg; have := b.usec_lt; omega, by omega⟩
  else ⟨a.sec - b.sec, a.usec - b.usec, by omega, by have := a.usec_lt; have := b.usec_nonneg; omega⟩

def compareTimeval (a b : ClockTime) : Int :=
  if a.sec < b.sec then -1
  else if b.sec < a.sec then 1
  else if a.usec < b.usec then -1
  else if b.usec < a.usec then 1
  else 0

variable (a b : ClockTime)

@[simp] theorem us_ofUs (z : Int) : (ofUs z).us = z := by
  simp only [us, ofUs]
  omega

@[simp] theorem us_ofMillis (ms : Int) : (ofMillis ms).us = ms * 1000 := by
  simp only [us, ofMillis]
  omega

theorem millis_eq : a.millis = a.us / 1000 := by
  simp only [us, millis]
  omega

@[simp] theorem us_addTimeval : (addTimeval a b).us = a.us + b.us := by
  unfold addTimeval us
  split_ifs <;> (dsimp only; omega)

@[simp] theorem us_subTimeval : (subTimeval a b).us = a.us - b.us := by
  unfold subTimeval us
  split_ifs <;> (dsimp only; omega)

theorem compareTimeval_eq : compareTimeval a b = if a.us < b.us then -1
    else if b.us < a.us then 1 else 0 := by
  have ha := a.usec_nonneg
  have ha' := a.usec_lt
  have hb := b.usec_nonneg
  have hb' := b.usec_lt
  unfold compareTimeval us
  split_ifs <;> omega

theorem compareTimeval_neg_iff : compareTimeval a b < 0 ↔ a.us < b.us := by
  rw [compareTimeval_eq]
  split_ifs <;> omega

theorem compareTimeval_pos_iff : 0 < compareTimeval a b ↔ b.us < a.us := by
  rw [compareTimeval_eq]
  split_ifs <;> omega

end ClockTime

section Grid

/-- The first point after now at a whole number of steps from last. -/
def nextPoint (last step now : Int) : Int := last + ((now - last) / step + 1) * step

variable {last step now : Int}

theorem nextPoint_sub_now (last step now : Int) :
    nextPoint last step now - now = step - (now - last) % step := by
  have hdiv := Int.mul_ediv_add_emod (now - last) step
  rw [nextPoint, add_mul, one_mul, Int.mul_comm _ step]
  omega

theorem lt_nextPoint (hstep : 0 < step) : now < nextPoint last step now := by
  have hsub := nextPoint_sub_now last step now
  have hlt := Int.emod_lt_of_pos (now - last) hstep
  omega

theorem nextPoint_le (hstep : 0 < step) : nextPoint last step now ≤ now + step := by
  have hsub := nextPoint_sub_now last step now
  have hnonneg := Int.emod_nonneg (now - last) hstep.ne'
  omega

theorem nextPoint_isLeast (hstep : 0 < step) {first m : Int} (hfirst : first = last + m * step)
    (hle : first ≤ now) :
    IsLeast {t | ∃ k : ℕ, t = first + k * step ∧ now < t} (nextPoint last step now) := by
  set q := (now - last) / step + 1 with hq
  have hpoint : nextPoint last step now = first + (q - m) * step := by
    rw [nextPoint, hfirst]
    ring
  have hlt : now < nextPoint last step now := lt_nextPoint hstep
  constructor
  · have hpos : 0 ≤ q - m := by
      by_contra hneg
      have hmul : (q - m) * step ≤ 0 := Int.mul_nonpos_of_nonpos_of_nonneg (by omega) hstep.le
      omega
    refine ⟨(q - m).toNat, ?_, hlt⟩
    rw [Int.toNat_of_nonneg hpos]
    exact hpoint
  · rintro t ⟨k, rfl, hnow⟩
    have hnext : nextPoint last step now ≤ now + step := nextPoint_le hstep
    rw [hpoint] at hnext ⊢
    -- the point before the next one is not after now, hence before the other point
    have hless : (q - m - 1) * step < k * step := by
      have hsplit : (q - m - 1) * step = (q - m) * step - step := by ring
      omega
    have hk : q - m - 1 < k := lt_of_mul_lt_mul_right hless hstep.le
    have hmul : (q - m) * step ≤ k * step := Int.mul_le_mul_of_nonneg_right (by omega) hstep.le
    omega

end Grid

end Reconnoiter
