import Reconnoiter.FlushBarrier

/-! The references of a message that goes to several lanes: the thread that distributes it has one, and
each lane that gets it has another, which its consumer gives back. -/

namespace Reconnoiter

/-- Where `distribute_message_with_interests` is, and for each lane the references that its fifo and its
consumer have. `freed` is kept for the statements: how often the message was freed. -/
structure MessageRefs (n : Nat) where
  refcnt : UInt32
  pc : FlushPc n
  queued : Fin n → Nat
  held : Fin n → Nat
  freed : Nat

inductive MessageAct (n : Nat) where
  | distribute (wanted : Bool)
  | dequeue (i : Fin n)
  | release (i : Fin n)

namespace MessageRefs

variable {n : Nat} {s t : MessageRefs n} {a : MessageAct n}

def start (n : Nat) : MessageRefs n := ⟨1, .looking 0, 0, 0, 0⟩

def deref (s : MessageRefs n) : MessageRefs n :=
  { s with refcnt := s.refcnt - 1, freed := s.freed + if s.refcnt - 1 = 0 then 1 else 0 }

/-- The next lane is `wanted` when it has interest in the message and not too large a backlog. -/
def step (s : MessageRefs n) : MessageAct n → Option (MessageRefs n)
  | .distribute wanted =>
    match s.pc with
    | .looking k =>
      if h : k < n then
        if wanted then some { s with refcnt := s.refcnt + 1, pc := .pushing ⟨k, h⟩ }
        else some { s with pc := .looking (k + 1) }
      else some { s.deref with pc := .returned }
    | .pushing i => some
        { s with queued := Function.update s.queued i (s.queued i + 1), pc := .looking (i + 1) }
    | .returned => none
  | .dequeue i =>
    if s.queued i = 0 then none
    else some { s with
      queued := Function.update s.queued i (s.queued i - 1)
      held := Function.update s.held i (s.held i + 1) }
  | .release i =>
    if s.held i = 0 then none else some { s.deref with held := Function.update s.held i (s.held i - 1) }

def laneRefs (queued held : Fin n → Nat) : Nat := ∑ i, (queued i + held i)

theorem laneRefs_update (queued held : Fin n → Nat) (i : Fin n) (q h : Nat) :
    laneRefs (Function.update queued i q) (Function.update held i h) + (queued i + held i) =
      laneRefs queued held + (q + h) := by
  have hrest : ∑ j ∈ Finset.univ.erase i, (Function.update queued i q j + Function.update held i h j) =
      ∑ j ∈ Finset.univ.erase i, (queued j + held j) := by
    apply Finset.sum_congr rfl
    intro j hj
    rw [Function.update_of_ne (Finset.ne_of_mem_erase hj), Function.update_of_ne (Finset.ne_of_mem_erase hj)]
  have hnew := Finset.add_sum_erase Finset.univ
    (fun j => Function.update queued i q j + Function.update held i h j) (Finset.mem_univ i)
  have hold := Finset.add_sum_erase Finset.univ (fun j => queued j + held j) (Finset.mem_univ i)
  simp only [Function.update_self] at hnew
  rw [laneRefs, laneRefs]
  omega

/-- The counter is that of a flush request, with the references of the lanes in the place of the marks. -/
def Counted (s : MessageRefs n) : Prop := Referenced s.pc s.refcnt (laneRefs s.queued s.held) s.freed

theorem Counted.step (hn : n < 2 ^ 31) (h : s.Counted) (hstep : s.step a = some t) : t.Counted := by
  unfold Counted at h ⊢
  cases a with
  | distribute wanted =>
    simp only [MessageRefs.step] at hstep
    split at hstep
    · next k hpc =>
      rw [hpc] at h
      split_ifs at hstep with hk
      · cases hstep
        exact h.reference hn hk
      · cases hstep
        exact h.skip hk
      · cases hstep
        exact h.observe (by simp only [FlushPc.refs, deref]; omega) (h.marks_le.trans h.passed_le) le_rfl
    · next i hpc =>
      rw [hpc] at h
      cases hstep
      have hlane := laneRefs_update s.queued s.held i (s.queued i + 1) (s.held i)
      rw [Function.update_eq_self] at hlane
      have hone : laneRefs (Function.update s.queued i (s.queued i + 1)) s.held =
        laneRefs s.queued s.held + 1 := by
        omega
      dsimp only
      rw [hone]
      exact h.push
    · cases hstep
  | dequeue i =>
    simp only [MessageRefs.step] at hstep
    split_ifs at hstep with hqueued
    cases hstep
    have hlane := laneRefs_update s.queued s.held i (s.queued i - 1) (s.held i + 1)
    have hsame : laneRefs (Function.update s.queued i (s.queued i - 1))
      (Function.update s.held i (s.held i + 1)) =
        laneRefs s.queued s.held := by omega
    dsimp only
    rw [hsame]
    exact h
  | release i =>
    simp only [MessageRefs.step] at hstep
    split_ifs at hstep with hheld
    cases hstep
    have hlane := laneRefs_update s.queued s.held i (s.queued i) (s.held i - 1)
    rw [Function.update_eq_self] at hlane
    have hle := h.marks_le
    exact h.observe (by simp only [deref]; omega) (by simp only [deref]; omega) h.passed_le

end MessageRefs

open MessageRefs in
/-- A message that goes to lanes in any interleaving of distribution and consumption is freed at most
once, exactly when the distribution is over and no lane has it any more, and nobody comes to it after
that. -/
theorem message_freed_once {n : Nat} (hn : n < 2 ^ 31) {acts : List (MessageAct n)} {s : MessageRefs n}
    (hrun : Run MessageRefs.step (fun _ _ => True) (MessageRefs.start n) acts s) :
    s.freed ≤ 1 ∧ (s.freed = 1 ↔ s.pc = .returned ∧ ∀ i, s.queued i = 0 ∧ s.held i = 0) ∧
      (s.freed = 1 → ∀ a, s.step a = none) := by
  have hstart : (MessageRefs.start n).Counted := by
    have hzero : laneRefs (start n).queued (start n).held = 0 := Finset.sum_eq_zero fun _ _ => rfl
    rw [Counted, hzero]
    exact .start
  have hinv : s.Counted := hrun.invariant (fun _ _ _ hi _ hs => hi.step hn hs) hstart
  have hfreed : s.freed = 1 ↔ s.pc = .returned ∧ ∀ i, s.queued i = 0 ∧ s.held i = 0 := by
    rw [hinv.triggered_eq_one_iff, laneRefs, Finset.sum_eq_zero_iff]
    simp
  refine ⟨hinv.triggered_le_one, hfreed, fun hone a => ?_⟩
  obtain ⟨hpc, hnone⟩ := hfreed.mp hone
  cases a with
  | distribute wanted => simp [MessageRefs.step, hpc]
  | dequeue i => exact if_pos (hnone i).1
  | release i => exact if_pos (hnone i).2

def consumedMessage : MessageRefs 1 :=
  (Run.execute MessageRefs.step (fun _ _ => true) (.start 1)
    [.distribute true, .distribute true, .dequeue 0, .distribute false, .release 0]).get (by decide +kernel)

theorem message_freed_once_consumed :
    consumedMessage.freed = 1 ∧ ∀ a, consumedMessage.step a = none := by
  have hrun : Run MessageRefs.step (fun _ _ => True) (.start 1)
      [.distribute true, .distribute true, .dequeue 0, .distribute false, .release 0] consumedMessage :=
    Run.of_execute (fun _ _ _ => trivial) (Option.some_get _).symm
  have hfreed : consumedMessage.freed = 1 := by decide +kernel
  exact ⟨hfreed, (message_freed_once (by norm_num) hrun).2.2 hfreed⟩

end Reconnoiter
