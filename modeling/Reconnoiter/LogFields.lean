import Reconnoiter.CheckLog

/-! The columns of log lines: fields that a tab ends, and the column that is recognised as a time. -/

namespace Reconnoiter

/-- One character in `noit_is_timestamp`: whether the point was seen, and the digits before and behind
it. -/
def timestampChar (st : Bool × Nat × Nat) (c : UInt8) : Option (Bool × Nat × Nat) :=
  if !st.1 && c = 46 then some (true, st.2)
  else if isDigit c then some (st.1, if st.1 then (st.2.1, st.2.2 + 1) else (st.2.1 + 1, st.2.2))
  else none

/-- The loop of `noit_is_timestamp`, which looks one character ahead for the end of the column. -/
def timestampLoop (st : Bool × Nat × Nat) : Bytes → Bool
  | [] => false
  | [_] => false
  | c :: d :: rest =>
    if c = 9 then false
    else
      match timestampChar st c with
      | none => false
      | some st => if d = 9 then st.2.2 = 3 && 0 < st.2.1 else timestampLoop st (d :: rest)

def isTimestamp (line : Bytes) : Bool := timestampLoop (false, 0, 0) line

def TimestampFirst (line : Bytes) : Prop :=
  ∃ sec msec rest, line = sec ++ 46 :: (msec ++ 9 :: rest) ∧ sec ≠ [] ∧ (∀ c ∈ sec, isDigit c = true) ∧
    msec.length = 3 ∧ ∀ c ∈ msec, isDigit c = true

theorem timestampChar_digit {c : UInt8} (hc : isDigit c = true) (st : Bool × Nat × Nat) :
    timestampChar st c = some (st.1, if st.1 then (st.2.1, st.2.2 + 1) else (st.2.1 + 1, st.2.2)) := by
  have hdot : c ≠ 46 := fun h => by rw [h] at hc; cases hc
  simp [timestampChar, hdot, hc]

theorem timestampLoop_eq (st : Bool × Nat × Nat) (s : Bytes) :
    timestampLoop st s = (decide (9 ∈ s) && decide (upTo 9 s ≠ []) &&
      ((upTo 9 s).foldlM timestampChar st).any fun st => st.2.2 = 3 && 0 < st.2.1) := by
  induction s generalizing st with
  | nil => rfl
  | cons c s ih =>
    by_cases hc : c = 9
    · subst hc
      cases s <;> simp [timestampLoop, upTo]
    · have hupTo : ∀ s, upTo 9 (c :: s) = c :: upTo 9 s :=
        fun s => List.takeWhile_cons_of_pos (by simpa using hc)
      have hmem : ∀ s, 9 ∈ c :: s ↔ 9 ∈ s := fun s => by simp [Ne.symm hc]
      cases s with
      | nil => simp [timestampLoop, hmem]
      | cons d s =>
        rw [timestampLoop, if_neg hc, hupTo, List.foldlM_cons]
        simp only [hmem]
        cases timestampChar st c with
        | none => simp
        | some st =>
          by_cases hd : d = 9
          · simp [hd, upTo]
          · have hne : upTo 9 (d :: s) ≠ [] := by simp [upTo, hd]
            simp only [if_neg hd, ih]
            simp [hne]

theorem foldlM_fraction (b a : Nat) (col : Bytes) (st : Bool × Nat × Nat) :
    col.foldlM timestampChar (true, b, a) = some st ↔
      (∀ c ∈ col, isDigit c = true) ∧ st = (true, b, a + col.length) := by
  induction col generalizing a with
  | nil => exact ⟨fun h => ⟨by simp, (Option.some.inj h).symm⟩, fun h => congrArg some h.2.symm⟩
  | cons c col ih =>
    rw [List.foldlM_cons]
    by_cases hc : isDigit c = true
    · have hstep : timestampChar (true, b, a) c = some (true, b, a + 1) := timestampChar_digit hc _
      rw [hstep, Option.bind_eq_bind, Option.bind_some, ih, List.length_cons]
      rw [List.forall_mem_cons, Nat.add_right_comm, Nat.add_assoc a, and_iff_right hc]
    · have hstep : timestampChar (true, b, a) c = none := by simp [timestampChar, hc]
      rw [hstep]
      simp [hc]

theorem foldlM_seconds (b : Nat) (col : Bytes) {st : Bool × Nat × Nat} (hst : st.2.2 ≠ 0) :
    col.foldlM timestampChar (false, b, 0) = some st ↔
      ∃ sec msec, col = sec ++ 46 :: msec ∧ (∀ c ∈ sec, isDigit c = true) ∧ (∀ c ∈ msec, isDigit c = true) ∧
        st = (true, b + sec.length, msec.length) := by
  induction col generalizing b with
  | nil =>
    refine iff_of_false ?_ ?_
    · rintro ⟨⟩
      exact hst rfl
    · rintro ⟨sec, msec, hcol, -⟩
      simp at hcol
  | cons c col ih =>
    rw [List.foldlM_cons]
    by_cases hdot : c = 46
    · subst hdot
      have hstep : timestampChar (false, b, 0) 46 = some (true, b, 0) := rfl
      rw [hstep, Option.bind_eq_bind, Option.bind_some, foldlM_fraction]
      constructor
      · rintro ⟨hdigits, rfl⟩
        exact ⟨[], col, rfl, by simp, hdigits, by simp⟩
      · rintro ⟨sec, msec, hcol, hsec, hmsec, rfl⟩
        cases sec with
        | nil =>
          cases hcol
          exact ⟨hmsec, by simp⟩
        | cons x sec =>
          rw [List.cons_append, List.cons.injEq] at hcol
          exact absurd (hsec x List.mem_cons_self) (by rw [← hcol.1]; decide)
    · by_cases hc : isDigit c = true
      · have hstep : timestampChar (false, b, 0) c = some (false, b + 1, 0) := timestampChar_digit hc _
        rw [hstep, Option.bind_eq_bind, Option.bind_some, ih]
        constructor
        · rintro ⟨sec, msec, rfl, hsec, hmsec, rfl⟩
          refine ⟨c :: sec, msec, rfl, ?_, hmsec, ?_⟩
          · simpa [hc] using hsec
          · rw [List.length_cons, Nat.add_right_comm, Nat.add_assoc]
        · rintro ⟨sec, msec, hcol, hsec, hmsec, rfl⟩
          cases sec with
          | nil =>
            rw [List.nil_append, List.cons.injEq] at hcol
            exact absurd hcol.1 hdot
          | cons x sec =>
            rw [List.cons_append, List.cons.injEq] at hcol
            obtain ⟨rfl, rfl⟩ := hcol
            refine ⟨sec, msec, rfl, fun c' hc' => hsec c' (List.mem_cons_of_mem _ hc'), hmsec, ?_⟩
            rw [List.length_cons, Nat.add_right_comm, Nat.add_assoc]
      · have hstep : timestampChar (false, b, 0) c = none := by simp [timestampChar, hc, hdot]
        rw [hstep]
        refine iff_of_false (fun h => by cases h) ?_
        rintro ⟨sec, msec, hcol, hsec, -⟩
        cases sec with
        | nil =>
          rw [List.nil_append, List.cons.injEq] at hcol
          exact hdot hcol.1
        | cons x sec =>
          rw [List.cons_append, List.cons.injEq] at hcol
          exact hc (hcol.1 ▸ hsec x List.mem_cons_self)

/-- A column counts as a time if it is seconds, a point and three digits of milliseconds. -/
theorem isTimestamp_iff (line : Bytes) : isTimestamp line = true ↔ TimestampFirst line := by
  rw [isTimestamp, timestampLoop_eq]
  simp only [Bool.and_eq_true, decide_eq_true_eq, Option.any_eq_true]
  constructor
  · rintro ⟨⟨hmem, hne⟩, st, hfold, hmsec, hsec⟩
    obtain ⟨sec, msec, hcol, hsecs, hmsecs, rfl⟩ := (foldlM_seconds 0 _ (by omega)).mp hfold
    refine ⟨sec, msec, after 9 line, ?_, ?_, hsecs, hmsec, hmsecs⟩
    · have hline := eq_upTo_append_after hmem
      rw [hcol] at hline
      simpa using hline
    · rintro rfl
      simp at hsec
  · rintro ⟨sec, msec, rest, rfl, hne, hsecs, hmsec, hmsecs⟩
    have h9 := tab_not_mem_time hsecs hmsecs
    have hupTo : upTo 9 (sec ++ 46 :: (msec ++ 9 :: rest)) = sec ++ 46 :: msec := by
      have h := upTo_append_cons h9 rest
      rwa [List.append_assoc, List.cons_append] at h
    rw [hupTo]
    refine ⟨⟨by simp, by simp⟩, (true, sec.length, msec.length), ?_, hmsec, List.length_pos_of_ne_nil hne⟩
    refine (foldlM_seconds 0 _ (show msec.length ≠ 0 by omega)).mpr ⟨sec, msec, rfl, hsecs, hmsecs, ?_⟩
    rw [Nat.zero_add]

theorem isTimestamp_timeField {t : TimeVal} (h : t.usec < 1000000) (rest : Bytes) :
    isTimestamp (timeField t ++ 9 :: rest) = true := by
  refine (isTimestamp_iff _).mpr ⟨decimal t.sec, decimalPad (t.usec / 1000), rest, ?_, decimal_ne_nil _,
    fun c => isDigit_of_mem_decimal, ?_, fun c => isDigit_of_mem_decimalPad⟩
  · rw [timeField, List.append_assoc, List.cons_append]
  · exact length_decimalPad (by omega)

end Reconnoiter
