import Reconnoiter.DirectorInterests
import Reconnoiter.Machine

/-! The backlog counters of the director's lanes, over distributions, flush
requests and dequeues. -/

namespace Reconnoiter

inductive Entry (μ : Type) where
  | message (m : μ)
  | flush (id : Nat)
deriving DecidableEq

/-- The lanes that have a fifo, the fifos with their counters, and the flush
requests with their reference counts.  `observed` is kept for the statements: how
many marks a lane has dequeued. -/
structure Backlogs (n : Nat) (μ : Type) where
  opened : Fin n → Bool
  lanes : Lanes n (Entry μ)
  refcnt : Nat → UInt32
  nextFlush : Nat
  triggered : List Nat
  observed : Fin n → Nat

def Backlogs.start (n : Nat) (μ : Type) : Backlogs n μ :=
  ⟨fun _ => false, ⟨fun _ => [], fun _ => 0⟩, fun _ => 0, 0, [], fun _ => 0⟩

inductive BacklogAct (n : Nat) (μ : Type) where
  | openLane (i : Fin n)
  | distribute (dropBacklogOver : Nat) (interests : Interests n) (message : μ)
  | flush
  | next (i : Fin n)

section

variable {n : Nat} {μ : Type}

def Lanes.push {ε : Type} (lanes : Lanes n ε) (i : Fin n) (e : ε) : Lanes n ε :=
  ⟨Function.update lanes.queue i (lanes.queue i ++ [e]),
    Function.update lanes.backlog i (lanes.backlog i + 1)⟩

def dmflushObserve (s : Backlogs n μ) (id : Nat) : Backlogs n μ :=
  { s with
    refcnt := Function.update s.refcnt id (s.refcnt id - 1)
    triggered := if s.refcnt id - 1 = 0 then s.triggered ++ [id] else s.triggered }

def flushLane (id : Nat) (s : Backlogs n μ) (i : Fin n) : Backlogs n μ :=
  if s.opened i then
    { s with
      refcnt := Function.update s.refcnt id (s.refcnt id + 1)
      lanes := s.lanes.push i (.flush id) }
  else s

def directorFlush (s : Backlogs n μ) : Backlogs n μ :=
  let id := s.nextFlush
  let s : Backlogs n μ := { s with refcnt := Function.update s.refcnt id 1, nextFlush := id + 1 }
  dmflushObserve ((List.finRange n).foldl (flushLane id) s) id

/-- `noit_metric_director_lane_next_backlog` on the entries of lane `i`, with the
message it returns. -/
def laneNext (i : Fin n) : List (Entry μ) → Backlogs n μ → Backlogs n μ × Option μ
  | [], s => ({ s with lanes := ⟨Function.update s.lanes.queue i [], s.lanes.backlog⟩ }, none)
  | .flush id :: q, s =>
    laneNext i q { dmflushObserve s id with observed := Function.update s.observed i (s.observed i + 1) }
  | .message m :: q, s =>
    let backlog := Function.update s.lanes.backlog i (s.lanes.backlog i - 1)
    ({ s with lanes := ⟨Function.update s.lanes.queue i q, backlog⟩ }, some m)

def backlogStep (s : Backlogs n μ) : BacklogAct n μ → Option (Backlogs n μ)
  | .openLane i => some { s with opened := Function.update s.opened i true }
  | .distribute dropBacklogOver interests message =>
    if ∀ i, interests i > 0 → s.opened i = true then
      some { s with
        lanes := distributeMessageWithInterests dropBacklogOver interests (.message message) s.lanes }
    else none
  | .flush => some (directorFlush s)
  | .next i => if s.opened i then some (laneNext i (s.lanes.queue i) s).1 else none

def Counts (lanes : Lanes n (Entry μ)) (observed : Fin n → Nat) : Prop :=
  ∀ i, lanes.backlog i = UInt32.ofNat ((lanes.queue i).length + observed i)

theorem counts_push {lanes : Lanes n (Entry μ)} {observed : Fin n → Nat} (h : Counts lanes observed)
    (i : Fin n) (e : Entry μ) : Counts (lanes.push i e) observed := by
  intro j
  by_cases hj : j = i
  · subst hj
    have hlen : (lanes.queue j ++ [e]).length + observed j = (lanes.queue j).length + observed j + 1 := by
      rw [List.length_append, List.length_singleton]
      omega
    simp only [Lanes.push, Function.update_self]
    rw [hlen, UInt32.ofNat_add, ← h j]
    rfl
  · simp only [Lanes.push, Function.update_of_ne hj]
    exact h j

theorem counts_distribute {lanes : Lanes n (Entry μ)} {observed : Fin n → Nat} (h : Counts lanes observed)
    (dropBacklogOver : Nat) (interests : Interests n) (message : μ) :
    Counts (distributeMessageWithInterests dropBacklogOver interests (.message message) lanes) observed := by
  unfold distributeMessageWithInterests
  induction List.finRange n generalizing lanes with
  | nil => exact h
  | cons i l ih =>
    rw [List.foldl_cons]
    apply ih
    unfold enqueue
    split_ifs
    · exact h
    · exact counts_push h i _
    · exact h

theorem counts_flush {s : Backlogs n μ} (h : Counts s.lanes s.observed) :
    Counts (directorFlush s).lanes (directorFlush s).observed := by
  have hfold : ∀ (id : Nat) (l : List (Fin n)) (s : Backlogs n μ), Counts s.lanes s.observed →
      Counts (l.foldl (flushLane id) s).lanes (l.foldl (flushLane id) s).observed := by
    intro id l
    induction l with
    | nil => exact fun _ h => h
    | cons i l ih =>
      intro s h
      rw [List.foldl_cons]
      apply ih
      unfold flushLane
      split_ifs
      · exact counts_push h i _
      · exact h
  exact hfold _ _ _ h

theorem counts_laneNext (i : Fin n) (q : List (Entry μ)) {s : Backlogs n μ}
    (hi : s.lanes.backlog i = UInt32.ofNat (q.length + s.observed i))
    (hrest : ∀ j, j ≠ i → s.lanes.backlog j = UInt32.ofNat ((s.lanes.queue j).length + s.observed j)) :
    Counts (laneNext i q s).1.lanes (laneNext i q s).1.observed := by
  induction q generalizing s with
  | nil =>
    intro j
    by_cases hj : j = i
    · subst hj
      simpa [laneNext] using hi
    · simpa [laneNext, hj] using hrest j hj
  | cons e q ih =>
    cases e with
    | flush id =>
      apply ih
      · have hsum : (Entry.flush id :: q).length + s.observed i = q.length + (s.observed i + 1) := by
          rw [List.length_cons]
          omega
        rw [hsum] at hi
        simpa [dmflushObserve] using hi
      · intro j hj
        simpa [dmflushObserve, hj] using hrest j hj
    | message m =>
      intro j
      by_cases hj : j = i
      · subst hj
        have hsum : (Entry.message m :: q).length + s.observed j = q.length + s.observed j + 1 := by
          rw [List.length_cons]
          omega
        rw [hsum, UInt32.ofNat_add] at hi
        simp only [laneNext, Function.update_self]
        rw [hi]
        exact UInt32.add_sub_cancel _ _
      · simpa [laneNext, hj] using hrest j hj

theorem counts_step {s t : Backlogs n μ} {a : BacklogAct n μ} (h : Counts s.lanes s.observed)
    (hstep : backlogStep s a = some t) : Counts t.lanes t.observed := by
  cases a with
  | openLane i =>
    obtain rfl := Option.some.inj hstep
    exact h
  | distribute dropBacklogOver interests message =>
    simp only [backlogStep] at hstep
    split_ifs at hstep
    obtain rfl := Option.some.inj hstep
    exact counts_distribute h _ _ _
  | flush =>
    obtain rfl := Option.some.inj hstep
    exact counts_flush h
  | next i =>
    simp only [backlogStep] at hstep
    split_ifs at hstep
    obtain rfl := Option.some.inj hstep
    exact counts_laneNext i _ (h i) (fun j _ => h j)

def BacklogExact (s : Backlogs n μ) : Prop :=
  ∀ i, (s.lanes.backlog i).toNat = (s.lanes.queue i).length ∧
    ∀ (dropBacklogOver : Nat) (interests : Interests n) (message : μ), interests i > 0 →
      (enqueue dropBacklogOver interests (.message message) s.lanes i).queue i = s.lanes.queue i →
        dropBacklogOver < (s.lanes.queue i).length

theorem dropped_over {lanes : Lanes n (Entry μ)} {i : Fin n} {dropBacklogOver : Nat} {interests : Interests n}
    {message : μ} (hi : interests i > 0)
    (h : (enqueue dropBacklogOver interests (.message message) lanes i).queue i = lanes.queue i) :
    dropBacklogOver < (lanes.backlog i).toNat := by
  unfold enqueue at h
  rw [if_pos hi] at h
  split_ifs at h with hdrop
  · exact hdrop.2
  · simp at h

/-- After any run the counters are exact precisely when the marks each lane has
dequeued are a multiple of what the counter can hold, and no more entries wait
than it can hold. -/
theorem backlog_exact_iff {as : List (BacklogAct n μ)} {s : Backlogs n μ}
    (h : Run backlogStep (fun _ _ => True) (Backlogs.start n μ) as s) :
    BacklogExact s ↔ ∀ i, (s.lanes.queue i).length < 2 ^ 32 ∧ 2 ^ 32 ∣ s.observed i := by
  have hcounts : Counts s.lanes s.observed :=
    h.invariant (I := fun s => Counts s.lanes s.observed) (fun s a t hs _ hstep => counts_step hs hstep)
      (fun i => rfl)
  have hval : ∀ i, (s.lanes.backlog i).toNat = ((s.lanes.queue i).length + s.observed i) % 2 ^ 32 := by
    intro i
    rw [hcounts i, UInt32.toNat_ofNat']
  constructor
  · intro hexact i
    have heq := (hexact i).1
    rw [hval i] at heq
    have hlt : (s.lanes.queue i).length < 2 ^ 32 := by
      rw [← heq]
      exact Nat.mod_lt _ (by norm_num)
    exact ⟨hlt, by omega⟩
  · intro hall i
    obtain ⟨hlt, k, hk⟩ := hall i
    have heq : (s.lanes.backlog i).toNat = (s.lanes.queue i).length := by
      rw [hval i, hk, Nat.add_mul_mod_self_left, Nat.mod_eq_of_lt hlt]
    refine ⟨heq, fun limit interests message hi hdrop => ?_⟩
    rw [← heq]
    exact dropped_over hi hdrop

end

def oneLane : List (BacklogAct 1 Nat) :=
  [.openLane 0, .distribute 0 (fun _ => 1) 7, .distribute 0 (fun _ => 1) 8, .next 0, .flush]

def oneLaneEnd : Backlogs 1 Nat :=
  (Run.execute backlogStep (fun _ _ => true) (Backlogs.start 1 Nat) oneLane).get (by decide +kernel)

theorem backlog_exact_one_lane :
    Run backlogStep (fun _ _ => True) (Backlogs.start 1 Nat) oneLane oneLaneEnd ∧
      BacklogExact oneLaneEnd := by
  have hrun : Run backlogStep (fun _ _ => True) (Backlogs.start 1 Nat) oneLane oneLaneEnd :=
    Run.of_execute (fun _ _ _ => trivial) (Option.some_get _).symm
  refine ⟨hrun, (backlog_exact_iff hrun).mpr ?_⟩
  decide +kernel

def flushTwice : List (BacklogAct 1 Nat) := [.openLane 0, .flush, .next 0, .flush, .next 0]

def flushTwiceEnd : Backlogs 1 Nat :=
  (Run.execute backlogStep (fun _ _ => true) (Backlogs.start 1 Nat) flushTwice).get (by decide +kernel)

theorem backlog_exact_fails :
    Run backlogStep (fun _ _ => True) (Backlogs.start 1 Nat) flushTwice flushTwiceEnd ∧
      flushTwiceEnd.lanes.queue 0 = [] ∧ flushTwiceEnd.lanes.backlog 0 = 2 ∧
      (enqueue 1 (fun _ => 1) (.message 7) flushTwiceEnd.lanes 0).queue 0 = [] ∧
      ¬ BacklogExact flushTwiceEnd := by
  have hqueue : flushTwiceEnd.lanes.queue 0 = [] := by decide +kernel
  have hbacklog : flushTwiceEnd.lanes.backlog 0 = 2 := by decide +kernel
  refine ⟨Run.of_execute (fun _ _ _ => trivial) (Option.some_get _).symm, hqueue, hbacklog,
    by decide +kernel, ?_⟩
  intro hexact
  have heq := (hexact 0).1
  rw [hqueue, hbacklog] at heq
  exact absurd heq (by decide)

end Reconnoiter
