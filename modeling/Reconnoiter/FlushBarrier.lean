import Reconnoiter.DirectorBacklog

/-! Flush requests step by step: a call takes a reference and leaves a mark in one lane after the other,
while the lanes' threads dequeue and other threads distribute. -/

namespace Reconnoiter

/-- Where a call of `noit_metric_director_flush` is: about to look at lane `k`, or behind the last lane;
with a reference taken for lane `i` and the mark not yet enqueued; or back with its caller. -/
inductive FlushPc (n : Nat) where
  | looking (k : Nat)
  | pushing (i : Fin n)
  | returned

/-- The flush mark that a lane's thread has dequeued and not yet observed is in `held`. What a lane has
dequeued so far is kept for the statements. -/
structure LaneSystem (n : Nat) (μ : Type) extends Backlogs n μ where
  calls : Nat → FlushPc n
  held : Fin n → Option Nat
  dequeued : Fin n → List (Entry μ)

def LaneSystem.start (n : Nat) (μ : Type) : LaneSystem n μ :=
  ⟨Backlogs.start n μ, fun _ => .returned, fun _ => none, fun _ => []⟩

inductive LaneSystemAct (n : Nat) (μ : Type) where
  | openLane (i : Fin n)
  | distribute (dropBacklogOver : Nat) (interests : Interests n) (message : μ) (i : Fin n)
  | flush
  | call (id : Nat)
  | lane (i : Fin n)

section Steps

variable {n : Nat} {μ : Type}

def takeReference (s : LaneSystem n μ) (id : Nat) (i : Fin n) : LaneSystem n μ :=
  { s with
    refcnt := Function.update s.refcnt id (s.refcnt id + 1)
    calls := Function.update s.calls id (.pushing i) }

def passLane (s : LaneSystem n μ) (id k : Nat) : LaneSystem n μ :=
  { s with calls := Function.update s.calls id (.looking (k + 1)) }

def leaveMark (s : LaneSystem n μ) (id : Nat) (i : Fin n) : LaneSystem n μ :=
  { s with
    lanes := s.lanes.push i (.flush id)
    calls := Function.update s.calls id (.looking (i + 1)) }

def finishCall (s : LaneSystem n μ) (id : Nat) : LaneSystem n μ :=
  { s with
    toBacklogs := dmflushObserve s.toBacklogs id
    calls := Function.update s.calls id .returned }

def callStep (s : LaneSystem n μ) (id : Nat) : Option (LaneSystem n μ) :=
  match s.calls id with
  | .looking k =>
    if h : k < n then if s.opened ⟨k, h⟩ then some (takeReference s id ⟨k, h⟩) else some (passLane s id k)
    else some (finishCall s id)
  | .pushing i => some (leaveMark s id i)
  | .returned => none

def observeMark (s : LaneSystem n μ) (i : Fin n) (id : Nat) : LaneSystem n μ :=
  { s with
    toBacklogs := { dmflushObserve s.toBacklogs id with
      observed := Function.update s.observed i (s.observed i + 1) }
    held := Function.update s.held i none }

def takeMark (s : LaneSystem n μ) (i : Fin n) (id : Nat) (q : List (Entry μ)) : LaneSystem n μ :=
  { s with
    lanes := ⟨Function.update s.lanes.queue i q, s.lanes.backlog⟩
    held := Function.update s.held i (some id)
    dequeued := Function.update s.dequeued i (s.dequeued i ++ [.flush id]) }

def takeMessage (s : LaneSystem n μ) (i : Fin n) (m : μ) (q : List (Entry μ)) : LaneSystem n μ :=
  { s with
    lanes := ⟨Function.update s.lanes.queue i q, Function.update s.lanes.backlog i (s.lanes.backlog i - 1)⟩
    dequeued := Function.update s.dequeued i (s.dequeued i ++ [.message m]) }

def laneStep (s : LaneSystem n μ) (i : Fin n) : LaneSystem n μ :=
  match s.held i, s.lanes.queue i with
  | some id, _ => observeMark s i id
  | none, [] => s
  | none, .flush id :: q => takeMark s i id q
  | none, .message m :: q => takeMessage s i m q

def beginFlush (s : LaneSystem n μ) : LaneSystem n μ :=
  { s with
    refcnt := Function.update s.refcnt s.nextFlush 1
    nextFlush := s.nextFlush + 1
    calls := Function.update s.calls s.nextFlush (.looking 0) }

def laneSystemStep (s : LaneSystem n μ) : LaneSystemAct n μ → Option (LaneSystem n μ)
  | .openLane i => some { s with opened := Function.update s.opened i true }
  | .distribute dropBacklogOver interests message i =>
    if interests i > 0 → s.opened i = true then
      some { s with lanes := enqueue dropBacklogOver interests (.message message) s.lanes i }
    else none
  | .flush => some (beginFlush s)
  | .call id => callStep s id
  | .lane i => if s.opened i then some (laneStep s i) else none

inductive LaneSystem.Step (s : LaneSystem n μ) : LaneSystemAct n μ → LaneSystem n μ → Prop where
  | opened (i : Fin n) : s.Step (.openLane i) { s with opened := Function.update s.opened i true }
  | dropped (limit : Nat) (interests : Interests n) (m : μ) (i : Fin n) :
      s.Step (.distribute limit interests m i) s
  | distributed (limit : Nat) (interests : Interests n) (m : μ) (i : Fin n) (hopen : s.opened i = true) :
      s.Step (.distribute limit interests m i) { s with lanes := s.lanes.push i (.message m) }
  | begun : s.Step .flush (beginFlush s)
  | referenced (id : Nat) (i : Fin n) (hpc : s.calls id = .looking i) (hopen : s.opened i = true) :
      s.Step (.call id) (takeReference s id i)
  | passed (id : Nat) (i : Fin n) (hpc : s.calls id = .looking i) (hclosed : s.opened i = false) :
      s.Step (.call id) (passLane s id i)
  | marked (id : Nat) (i : Fin n) (hpc : s.calls id = .pushing i) : s.Step (.call id) (leaveMark s id i)
  | finished (id k : Nat) (hpc : s.calls id = .looking k) (hk : n ≤ k) : s.Step (.call id) (finishCall s id)
  | observed (i : Fin n) (id : Nat) (hheld : s.held i = some id) : s.Step (.lane i) (observeMark s i id)
  | idle (i : Fin n) (hheld : s.held i = none) (hqueue : s.lanes.queue i = []) : s.Step (.lane i) s
  | tookMark (i : Fin n) (id : Nat) (q : List (Entry μ)) (hheld : s.held i = none)
      (hqueue : s.lanes.queue i = .flush id :: q) : s.Step (.lane i) (takeMark s i id q)
  | tookMessage (i : Fin n) (m : μ) (q : List (Entry μ)) (hheld : s.held i = none)
      (hqueue : s.lanes.queue i = .message m :: q) : s.Step (.lane i) (takeMessage s i m q)

theorem LaneSystem.step_of {s t : LaneSystem n μ} {a : LaneSystemAct n μ}
    (h : laneSystemStep s a = some t) : s.Step a t := by
  cases a with
  | openLane i =>
    cases h
    exact .opened i
  | distribute limit interests m i =>
    simp only [laneSystemStep] at h
    split_ifs at h with hopen
    cases h
    unfold enqueue
    split_ifs with hi hlimit
    · exact .dropped limit interests m i
    · exact .distributed limit interests m i (hopen hi)
    · exact .dropped limit interests m i
  | flush =>
    cases h
    exact .begun
  | call id =>
    simp only [laneSystemStep, callStep] at h
    split at h
    · next k hpc =>
      split_ifs at h with hk hopen
      · cases h
        exact .referenced id ⟨k, hk⟩ hpc hopen
      · cases h
        exact .passed id ⟨k, hk⟩ hpc (Bool.eq_false_of_not_eq_true hopen)
      · cases h
        exact .finished id k hpc (Nat.le_of_not_lt hk)
    · next i hpc =>
      cases h
      exact .marked id i hpc
    · cases h
  | lane i =>
    simp only [laneSystemStep] at h
    split_ifs at h
    cases h
    unfold laneStep
    split
    · next id hheld => exact .observed i id hheld
    · next hheld hqueue => exact .idle i hheld hqueue
    · next id q hheld hqueue => exact .tookMark i id q hheld hqueue
    · next m q hheld hqueue => exact .tookMessage i m q hheld hqueue

end Steps

section References

variable {n : Nat}

def FlushPc.refs : FlushPc n → Nat
  | .looking _ => 1
  | .pushing _ => 2
  | .returned => 0

def FlushPc.passed : FlushPc n → Nat
  | .looking k => k
  | .pushing i => i
  | .returned => n

structure Referenced (pc : FlushPc n) (refcnt : UInt32) (marks triggered : Nat) : Prop where
  refs : refcnt.toNat = pc.refs + marks
  marks_le : marks ≤ pc.passed
  passed_le : pc.passed ≤ n
  triggered_eq : triggered = if refcnt = 0 then 1 else 0

variable {refcnt : UInt32} {marks triggered k : Nat}

theorem toNat_sub_one {r : UInt32} (h : 0 < r.toNat) : (r - 1).toNat = r.toNat - 1 :=
  UInt32.toNat_sub_of_le r 1 (UInt32.le_iff_toNat_le.mpr h)

theorem Referenced.start : Referenced (n := n) (.looking 0) 1 0 0 := ⟨rfl, le_rfl, Nat.zero_le _, rfl⟩

theorem Referenced.reference (h : Referenced (n := n) (.looking k) refcnt marks triggered) (hn : n < 2 ^ 31)
    (hk : k < n) : Referenced (.pushing ⟨k, hk⟩) (refcnt + 1) marks triggered := by
  have hrefs := h.refs
  have hmarks := h.marks_le
  simp only [FlushPc.refs, FlushPc.passed] at hrefs hmarks
  have hnat : (refcnt + 1).toNat = refcnt.toNat + 1 := by
    rw [UInt32.toNat_add, UInt32.toNat_one]
    omega
  have hne : refcnt ≠ 0 := fun h0 => by simp [h0] at hrefs; omega
  have hne' : refcnt + 1 ≠ 0 := fun h0 => by rw [h0] at hnat; simp at hnat
  refine ⟨?_, hmarks, hk.le, ?_⟩
  · rw [hnat, hrefs]
    simp only [FlushPc.refs]
    omega
  · rw [h.triggered_eq, if_neg hne, if_neg hne']

theorem Referenced.skip (h : Referenced (n := n) (.looking k) refcnt marks triggered) (hk : k < n) :
    Referenced (n := n) (.looking (k + 1)) refcnt marks triggered :=
  ⟨h.refs, h.marks_le.trans (Nat.le_succ k), hk, h.triggered_eq⟩

theorem Referenced.push {i : Fin n} (h : Referenced (.pushing i) refcnt marks triggered) :
    Referenced (n := n) (.looking (i + 1)) refcnt (marks + 1) triggered := by
  refine ⟨?_, Nat.succ_le_succ h.marks_le, i.isLt, h.triggered_eq⟩
  have hrefs := h.refs
  simp only [FlushPc.refs] at hrefs ⊢
  omega

theorem Referenced.observe {pc pc' : FlushPc n} {marks' : Nat} (h : Referenced pc refcnt marks triggered)
    (hrefs : pc.refs + marks = pc'.refs + marks' + 1) (hmarks : marks' ≤ pc'.passed)
    (hpassed : pc'.passed ≤ n) :
    Referenced pc' (refcnt - 1) marks' (triggered + if refcnt - 1 = 0 then 1 else 0) := by
  have hpos : 0 < refcnt.toNat := by rw [h.refs]; omega
  have hne : refcnt ≠ 0 := fun h0 => by simp [h0] at hpos
  refine ⟨?_, hmarks, hpassed, ?_⟩
  · rw [toNat_sub_one hpos, h.refs]
    omega
  · rw [h.triggered_eq, if_neg hne, Nat.zero_add]

theorem Referenced.triggered_le_one {pc : FlushPc n} (h : Referenced pc refcnt marks triggered) :
    triggered ≤ 1 := by
  rw [h.triggered_eq]
  split_ifs <;> omega

theorem Referenced.triggered_eq_one_iff {pc : FlushPc n} (h : Referenced pc refcnt marks triggered) :
    triggered = 1 ↔ pc = .returned ∧ marks = 0 := by
  have hzero : refcnt = 0 ↔ pc.refs + marks = 0 := by
    rw [← h.refs, ← UInt32.toNat_inj]
    rfl
  have hpc : pc = .returned ↔ pc.refs = 0 := by cases pc <;> simp [FlushPc.refs]
  rw [h.triggered_eq, hpc]
  simp [hzero]

end References

section Invariant

variable {n : Nat} {μ : Type}

def Entry.isMark (id : Nat) : Entry μ → Bool
  | .message _ => false
  | .flush id' => id' = id

def laneMarks (id : Nat) (q : List (Entry μ)) (held : Option Nat) : Nat :=
  q.countP (Entry.isMark id) + if held = some id then 1 else 0

def LaneSystem.marks (s : LaneSystem n μ) (id : Nat) : Nat := ∑ i, laneMarks id (s.lanes.queue i) (s.held i)

structure LaneSystem.Inv (s : LaneSystem n μ) : Prop where
  started : ∀ id < s.nextFlush, Referenced (s.calls id) (s.refcnt id) (s.marks id) (s.triggered.count id)
  fresh : ∀ id, s.nextFlush ≤ id → s.calls id = .returned ∧ s.marks id = 0 ∧ s.triggered.count id = 0
  closed : ∀ i, s.opened i = false → s.lanes.queue i = [] ∧ s.held i = none
  pushing : ∀ id i, s.calls id = .pushing i → s.opened i = true

variable {s t : LaneSystem n μ} {id : Nat}

theorem marks_of_lane (i : Fin n) (hqueue : ∀ j ≠ i, t.lanes.queue j = s.lanes.queue j)
    (hheld : ∀ j ≠ i, t.held j = s.held j) (id : Nat) :
    t.marks id + laneMarks id (s.lanes.queue i) (s.held i) = s.marks id +
      laneMarks id (t.lanes.queue i) (t.held i) := by
  have hrest : ∑ j ∈ Finset.univ.erase i, laneMarks id (t.lanes.queue j) (t.held j) =
      ∑ j ∈ Finset.univ.erase i, laneMarks id (s.lanes.queue j) (s.held j) := by
    apply Finset.sum_congr rfl
    intro j hj
    rw [hqueue j (Finset.ne_of_mem_erase hj), hheld j (Finset.ne_of_mem_erase hj)]
  rw [LaneSystem.marks, LaneSystem.marks, ← Finset.add_sum_erase _ _ (Finset.mem_univ i),
    ← Finset.add_sum_erase _ _ (Finset.mem_univ i), hrest]
  omega

theorem count_dmflushObserve (s : Backlogs n μ) (id id' : Nat) :
    (dmflushObserve s id).triggered.count id' =
      s.triggered.count id' + if id = id' ∧ s.refcnt id - 1 = 0 then 1 else 0 := by
  unfold dmflushObserve
  by_cases hzero : s.refcnt id - 1 = 0
  · simp only [hzero, if_true, and_true, List.count_append, List.count_singleton, beq_iff_eq]
  · simp only [hzero, if_false, and_false, Nat.add_zero]

theorem LaneSystem.Inv.of_request (h : s.Inv) (hnext : t.nextFlush = s.nextFlush) (hid : id < s.nextFlush)
    (hcalls : ∀ id' ≠ id, t.calls id' = s.calls id') (hrefcnt : ∀ id' ≠ id, t.refcnt id' = s.refcnt id')
    (hmarks : ∀ id' ≠ id, t.marks id' = s.marks id')
    (hcount : ∀ id' ≠ id, t.triggered.count id' = s.triggered.count id')
    (hrequest : Referenced (t.calls id) (t.refcnt id) (t.marks id) (t.triggered.count id))
    (hclosed : ∀ i, t.opened i = false → t.lanes.queue i = [] ∧ t.held i = none)
    (hopened : t.opened = s.opened) (hpushing : ∀ i, t.calls id = .pushing i → s.opened i = true) :
    t.Inv := by
  refine ⟨fun id' hid' => ?_, fun id' hid' => ?_, hclosed, fun id' i hpc => ?_⟩
  · by_cases heq : id' = id
    · rw [heq]
      exact hrequest
    · rw [hcalls id' heq, hrefcnt id' heq, hmarks id' heq, hcount id' heq]
      exact h.started id' (hnext ▸ hid')
  · have hne : id' ≠ id := by omega
    rw [hcalls id' hne, hmarks id' hne, hcount id' hne]
    exact h.fresh id' (hnext ▸ hid')
  · rw [hopened]
    by_cases heq : id' = id
    · exact hpushing i (heq ▸ hpc)
    · exact h.pushing id' i (hcalls id' heq ▸ hpc)

theorem LaneSystem.Inv.of_same (h : s.Inv) (hnext : t.nextFlush = s.nextFlush) (hcalls : t.calls = s.calls)
    (hrefcnt : t.refcnt = s.refcnt) (hmarks : ∀ id, t.marks id = s.marks id)
    (htriggered : t.triggered = s.triggered)
    (hclosed : ∀ i, t.opened i = false → t.lanes.queue i = [] ∧ t.held i = none)
    (hopened : ∀ i, s.opened i = true → t.opened i = true) : t.Inv := by
  refine ⟨fun id hid => ?_, fun id hid => ?_, hclosed, fun id i hpc =>
    hopened i (h.pushing id i (hcalls ▸ hpc))⟩
  · rw [hcalls, hrefcnt, hmarks, htriggered]
    exact h.started id (hnext ▸ hid)
  · rw [hcalls, hmarks, htriggered]
    exact h.fresh id (hnext ▸ hid)

theorem LaneSystem.Inv.lt_of_call (h : s.Inv) (hpc : s.calls id ≠ .returned) : id < s.nextFlush := by
  by_contra hle
  exact hpc (h.fresh id (by omega)).1

theorem LaneSystem.Inv.lt_of_held (h : s.Inv) {i : Fin n} (hheld : s.held i = some id) :
    id < s.nextFlush := by
  by_contra hle
  have hzero := (h.fresh id (by omega)).2.1
  have hlane := (Finset.sum_eq_zero_iff.mp hzero) i (Finset.mem_univ i)
  simp [laneMarks, hheld] at hlane

theorem laneMarks_append (q : List (Entry μ)) (e : Entry μ) (held : Option Nat) :
    laneMarks id (q ++ [e]) held = laneMarks id q held + if e.isMark id then 1 else 0 := by
  rw [laneMarks, laneMarks, List.countP_append, List.countP_singleton]
  omega

theorem marks_push (i : Fin n) (e : Entry μ) (hlanes : t.lanes = s.lanes.push i e)
    (hheld : t.held = s.held) (id : Nat) :
    t.marks id = s.marks id + if e.isMark id then 1 else 0 := by
  have hmarks := @marks_of_lane n μ s t i (fun j hj => by rw [hlanes]; exact Function.update_of_ne hj _ _)
    (fun j _ => by rw [hheld]) id
  have hqueue : t.lanes.queue i = s.lanes.queue i ++ [e] := by rw [hlanes]; exact Function.update_self ..
  rw [hqueue, hheld, laneMarks_append] at hmarks
  omega

theorem closed_update (h : ∀ i, s.opened i = false → s.lanes.queue i = [] ∧ s.held i = none) {i : Fin n}
    (hopen : s.opened i = true) (q : List (Entry μ)) (held : Option Nat) (j : Fin n)
    (hj : s.opened j = false) :
    Function.update s.lanes.queue i q j = [] ∧ Function.update s.held i held j = none := by
  have hne : j ≠ i := by
    rintro rfl
    rw [hopen] at hj
    cases hj
  rw [Function.update_of_ne hne, Function.update_of_ne hne]
  exact h j hj

theorem LaneSystem.Inv.opened_of_queue (h : s.Inv) {i : Fin n}
    (hne : s.lanes.queue i ≠ [] ∨ s.held i ≠ none) :
    s.opened i = true := by
  by_contra hclosed
  obtain ⟨hqueue, hheld⟩ := h.closed i (Bool.eq_false_of_not_eq_true hclosed)
  exact hne.elim (fun hc => hc hqueue) (fun hc => hc hheld)

theorem LaneSystem.Inv.begun (h : s.Inv) : (beginFlush s).Inv := by
  refine ⟨fun id hid => ?_, fun id hid => ?_, h.closed, fun id i hpc => ?_⟩
  · by_cases hnew : id = s.nextFlush
    · subst hnew
      obtain ⟨-, hmarks, hcount⟩ := h.fresh _ le_rfl
      have hstart : Referenced (n := n) (.looking 0) 1 0 0 := .start
      simp only [beginFlush, Function.update_self]
      rw [hcount]
      exact hmarks ▸ hstart
    · have hlt : id < s.nextFlush := lt_of_le_of_ne (Nat.lt_succ_iff.mp hid) hnew
      simp only [beginFlush, Function.update_of_ne hnew]
      exact h.started id hlt
  · have hne : id ≠ s.nextFlush := by
      rintro rfl
      exact absurd hid (Nat.not_succ_le_self _)
    simp only [beginFlush, Function.update_of_ne hne]
    exact h.fresh id (Nat.le_of_succ_le hid)
  · by_cases hnew : id = s.nextFlush
    · subst hnew
      simp [beginFlush] at hpc
    · simp only [beginFlush, Function.update_of_ne hnew] at hpc
      exact h.pushing id i hpc

theorem LaneSystem.Inv.marked (h : s.Inv) {i : Fin n} (hpc : s.calls id = .pushing i) :
    (leaveMark s id i).Inv := by
  have hid : id < s.nextFlush := h.lt_of_call (by rw [hpc]; exact fun hc => by cases hc)
  have hreq := h.started id hid
  rw [hpc] at hreq
  have hmarks : ∀ id', (leaveMark s id i).marks id' = s.marks id' +
    if (Entry.flush id : Entry μ).isMark id' then 1 else 0 :=
    marks_push i _ rfl rfl
  refine h.of_request rfl hid (fun _ hne => Function.update_of_ne hne _ _)
    (fun _ _ => rfl) (fun id' hne => ?_)
    (fun _ _ => rfl) ?_ (fun j hj => ?_) rfl (fun j hpc' => ?_)
  · rw [hmarks]
    simp [Entry.isMark, Ne.symm hne]
  · rw [hmarks]
    simpa [Entry.isMark, leaveMark] using hreq.push
  · have hclosed := closed_update h.closed (h.pushing id i hpc) (s.lanes.queue i ++ [.flush id])
      (s.held i) j hj
    rwa [Function.update_eq_self] at hclosed
  · simp [leaveMark] at hpc'

theorem LaneSystem.Inv.observed (h : s.Inv) {i : Fin n} (hheld : s.held i = some id) :
    (observeMark s i id).Inv := by
  have hid := h.lt_of_held hheld
  have hreq := h.started id hid
  have hlane : ∀ id', (observeMark s i id).marks id' + (if id = id' then 1 else 0) = s.marks id' := by
    intro id'
    have hmarks := @marks_of_lane n μ s (observeMark s i id) i (fun _ _ => rfl)
      (fun j hj => Function.update_of_ne hj _ _) id'
    simp only [observeMark, dmflushObserve, Function.update_self, laneMarks, hheld,
      Option.some.injEq] at hmarks ⊢
    simp only [reduceCtorEq, if_false] at hmarks
    omega
  refine h.of_request rfl hid (fun _ _ => rfl) (fun _ hne => Function.update_of_ne hne _ _)
    (fun id' hne => ?_)
    (fun id' hne => ?_) ?_ (fun j hj => ?_) rfl (h.pushing id)
  · simpa [Ne.symm hne] using hlane id'
  · exact (count_dmflushObserve _ _ _).trans (by rw [if_neg (fun hc => hne hc.1.symm), Nat.add_zero])
  · have hmarks := hlane id
    rw [if_pos rfl] at hmarks
    have hle := hreq.marks_le
    have hdone : Referenced (s.calls id) _ ((observeMark s i id).marks id) _ :=
      hreq.observe (by omega) (by omega) hreq.passed_le
    have hcount := count_dmflushObserve s.toBacklogs id id
    simp only [true_and] at hcount
    rw [← hcount] at hdone
    simpa [observeMark, dmflushObserve] using hdone
  · have hclosed := closed_update h.closed
      (h.opened_of_queue (.inr (by rw [hheld]; exact Option.some_ne_none _)))
      (s.lanes.queue i) none j hj
    rwa [Function.update_eq_self] at hclosed

theorem LaneSystem.Inv.finished (h : s.Inv) {k : Nat} (hpc : s.calls id = .looking k) :
    (finishCall s id).Inv := by
  have hid : id < s.nextFlush := h.lt_of_call (by rw [hpc]; exact fun hc => by cases hc)
  have hreq := h.started id hid
  rw [hpc] at hreq
  have hmarks : s.marks id ≤ n := hreq.marks_le.trans hreq.passed_le
  refine h.of_request rfl hid (fun _ hne => Function.update_of_ne hne _ _)
    (fun _ hne => Function.update_of_ne hne _ _) (fun _ _ => rfl)
    (fun id' hne => ?_) ?_ h.closed rfl (fun i hpc' => ?_)
  · exact (count_dmflushObserve _ _ _).trans (by rw [if_neg (fun hc => hne hc.1.symm), Nat.add_zero])
  · have hdone : Referenced (.returned : FlushPc n) _ (s.marks id) _ :=
      hreq.observe (by simp only [FlushPc.refs]; omega) hmarks le_rfl
    have hcount := count_dmflushObserve s.toBacklogs id id
    simp only [true_and] at hcount
    rw [← hcount] at hdone
    simpa [finishCall, dmflushObserve, LaneSystem.marks] using hdone
  · simp [finishCall] at hpc'

theorem LaneSystem.Inv.step {a : LaneSystemAct n μ} (hn : n < 2 ^ 31) (h : s.Inv)
    (hstep : s.Step a t) : t.Inv := by
  cases hstep with
  | opened i =>
    refine h.of_same rfl rfl rfl (fun _ => rfl) rfl (fun j hj => ?_) (fun j hj => ?_)
    · apply h.closed j
      by_cases hji : j = i
      · subst hji
        simp at hj
      · simpa [Function.update_of_ne hji] using hj
    · by_cases hji : j = i
      · subst hji
        simp
      · simpa [Function.update_of_ne hji] using hj
  | dropped => exact h
  | distributed limit interests m i hopen =>
    refine h.of_same rfl rfl rfl (fun id => ?_) rfl (fun j hj => ?_) (fun _ hj => hj)
    · exact @marks_push n μ s { s with lanes := s.lanes.push i (.message m) } i (.message m) rfl rfl id
    · have hclosed := closed_update h.closed hopen (s.lanes.queue i ++ [.message m]) (s.held i) j hj
      rwa [Function.update_eq_self] at hclosed
  | begun => exact h.begun
  | referenced id i hpc hopen =>
    have hid : id < s.nextFlush := h.lt_of_call (by rw [hpc]; exact fun hc => by cases hc)
    have hreq := h.started id hid
    rw [hpc] at hreq
    refine h.of_request rfl hid (fun _ hne => Function.update_of_ne hne _ _)
      (fun _ hne => Function.update_of_ne hne _ _) (fun _ _ => rfl)
        (fun _ _ => rfl) ?_ h.closed rfl (fun j hj => ?_)
    · simpa [takeReference, LaneSystem.marks] using hreq.reference hn i.isLt
    · simp only [takeReference, Function.update_self, FlushPc.pushing.injEq] at hj
      exact hj ▸ hopen
  | passed id i hpc hclosed =>
    have hid : id < s.nextFlush := h.lt_of_call (by rw [hpc]; exact fun hc => by cases hc)
    have hreq := h.started id hid
    rw [hpc] at hreq
    refine h.of_request rfl hid (fun _ hne => Function.update_of_ne hne _ _) (fun _ _ => rfl) (fun _ _ => rfl)
      (fun _ _ => rfl) ?_ h.closed rfl (fun j hj => ?_)
    · simpa [passLane, LaneSystem.marks] using hreq.skip i.isLt
    · simp [passLane] at hj
  | marked id i hpc => exact h.marked hpc
  | finished id k hpc hk => exact h.finished hpc
  | observed i id hheld => exact h.observed hheld
  | idle => exact h
  | tookMark i id q hheld hqueue =>
    have hopen := h.opened_of_queue (.inl (by rw [hqueue]; exact List.cons_ne_nil _ _))
    refine h.of_same rfl rfl rfl (fun id' => ?_) rfl (closed_update h.closed hopen q (some id))
      (fun _ hj => hj)
    have hmarks := @marks_of_lane n μ s (takeMark s i id q) i (fun j hj => Function.update_of_ne hj _ _)
      (fun j hj => Function.update_of_ne hj _ _) id'
    simp [takeMark, laneMarks, hqueue, hheld, List.countP_cons, Entry.isMark] at hmarks ⊢
    omega
  | tookMessage i m q hheld hqueue =>
    have hopen := h.opened_of_queue (.inl (by rw [hqueue]; exact List.cons_ne_nil _ _))
    refine h.of_same rfl rfl rfl (fun id' => ?_) rfl (fun j hj => ?_) (fun _ hj => hj)
    · have hmarks := @marks_of_lane n μ s (takeMessage s i m q) i (fun j hj => Function.update_of_ne hj _ _)
        (fun j hj => rfl) id'
      simp [takeMessage, laneMarks, hqueue, hheld, Entry.isMark] at hmarks ⊢
      omega
    · have hclosed := closed_update h.closed hopen q (s.held i) j hj
      rwa [Function.update_eq_self] at hclosed

theorem LaneSystem.Inv.start : (LaneSystem.start n μ).Inv := by
  refine ⟨fun id hid => absurd hid (Nat.not_lt_zero id), fun id _ => ⟨rfl, ?_, rfl⟩, fun _ _ => ⟨rfl, rfl⟩,
    fun _ _ hpc => by cases hpc⟩
  exact Finset.sum_eq_zero fun _ _ => rfl

end Invariant

section Barrier

variable {n : Nat} {μ : Type} {s t : LaneSystem n μ} {a : LaneSystemAct n μ} {id : Nat} {i : Fin n}
  {before : List (Entry μ)}

def LaneSystem.history (s : LaneSystem n μ) (i : Fin n) : List (Entry μ) := s.dequeued i ++ s.lanes.queue i

theorem history_push (h : t.dequeued = s.dequeued) {j : Fin n} {e : Entry μ}
    (hlanes : t.lanes = s.lanes.push j e)
    (i : Fin n) : t.history i = s.history i ++ if i = j then [e] else [] := by
  rw [LaneSystem.history, LaneSystem.history, h, hlanes, List.append_assoc]
  by_cases hij : i = j
  · subst hij
    simp [Lanes.push]
  · simp [Lanes.push, hij]

theorem history_take {j : Fin n} {e : Entry μ} {q : List (Entry μ)}
    (hqueue : s.lanes.queue j = e :: q) (i : Fin n) :
    Function.update s.dequeued j (s.dequeued j ++ [e]) i ++ Function.update s.lanes.queue j q i =
      s.history i := by
  rw [LaneSystem.history]
  by_cases hij : i = j
  · subst hij
    simp [hqueue]
  · simp [hij]

theorem LaneSystem.Step.history (hstep : s.Step a t) (i : Fin n) : s.history i <+: t.history i := by
  cases hstep with
  | distributed limit interests m j hopen =>
    exact ⟨_, (@history_push n μ s { s with lanes := s.lanes.push j (.message m) } rfl j
      (.message m) rfl i).symm⟩
  | marked id j hpc => exact ⟨_, (@history_push n μ s (leaveMark s id j) rfl j (.flush id) rfl i).symm⟩
  | tookMark j id q hheld hqueue => exact (history_take hqueue i).symm ▸ List.prefix_rfl
  | tookMessage j m q hheld hqueue => exact (history_take hqueue i).symm ▸ List.prefix_rfl
  | _ => exact List.prefix_rfl

def FlushPc.Before (i : Fin n) : FlushPc n → Prop
  | .looking k => k ≤ i
  | .pushing j => j ≤ i
  | .returned => False

/-- The call still has to leave its mark in the lane, or the mark came behind the entries. -/
structure LaneSystem.Covers (s : LaneSystem n μ) (id : Nat) (i : Fin n) (before : List (Entry μ)) : Prop where
  begun : id < s.nextFlush
  opened : s.opened i = true
  history : before <+: s.history i
  mark : (s.calls id).Before i ∨ ∃ ahead behind, s.history i = ahead ++ .flush id :: behind ∧ before <+: ahead

theorem LaneSystem.Covers.of_before (h : s.Covers id i before) (hstep : s.Step a t)
    (hpc : (s.calls id).Before i) :
    (t.calls id).Before i ∨ t.history i = s.history i ++ [.flush id] := by
  cases hstep with
  | begun =>
    have hne : id ≠ s.nextFlush := h.begun.ne
    simpa [beginFlush, hne] using Or.inl hpc
  | referenced id' j hcall hopen =>
    by_cases hid : id = id'
    · subst hid
      rw [hcall] at hpc
      exact .inl (by simpa [takeReference, FlushPc.Before] using hpc)
    · exact .inl (by simpa [takeReference, hid] using hpc)
  | passed id' j hcall hclosed =>
    by_cases hid : id = id'
    · subst hid
      rw [hcall] at hpc
      have hne : (j : Nat) ≠ i := by
        intro hji
        rw [Fin.ext hji, h.opened] at hclosed
        cases hclosed
      have hlt : (j : Nat) + 1 ≤ i := lt_of_le_of_ne hpc hne
      exact .inl (by simpa [passLane, FlushPc.Before] using hlt)
    · exact .inl (by simpa [passLane, hid] using hpc)
  | marked id' j hcall =>
    by_cases hid : id = id'
    · subst hid
      rw [hcall] at hpc
      by_cases hji : i = j
      · refine .inr ?_
        rw [@history_push n μ s (leaveMark s id j) rfl j (.flush id) rfl i, if_pos hji]
      · have hlt : (j : Nat) + 1 ≤ i := lt_of_le_of_ne hpc (fun hc => hji hc.symm)
        exact .inl (by simpa [leaveMark, FlushPc.Before] using hlt)
    · exact .inl (by simpa [leaveMark, hid] using hpc)
  | finished id' k hcall hk =>
    by_cases hid : id = id'
    · subst hid
      rw [hcall] at hpc
      have hlt : k ≤ i := hpc
      omega
    · exact .inl (by simpa [finishCall, hid] using hpc)
  | _ => exact .inl hpc

theorem LaneSystem.Covers.step (h : s.Covers id i before) (hstep : s.Step a t) : t.Covers id i before := by
  have hprefix := hstep.history i
  have hkept : id < t.nextFlush ∧ t.opened i = true := by
    cases hstep with
    | opened j =>
      refine ⟨h.begun, ?_⟩
      by_cases hij : i = j
      · subst hij
        simp
      · simpa [hij] using h.opened
    | begun => exact ⟨Nat.lt_succ_of_lt h.begun, h.opened⟩
    | _ => exact ⟨h.begun, h.opened⟩
  refine ⟨hkept.1, hkept.2, h.history.trans hprefix, ?_⟩
  rcases h.mark with hpc | ⟨ahead, behind, hmark, hbefore⟩
  · rcases h.of_before hstep hpc with hpc' | hleft
    · exact .inl hpc'
    · exact .inr ⟨s.history i, [], hleft, h.history⟩
  · obtain ⟨more, hmore⟩ := hprefix
    exact .inr ⟨ahead, behind ++ more, by rw [← hmore, hmark]; simp, hbefore⟩

theorem LaneSystem.Covers.dequeued (h : s.Covers id i before) (hpc : s.calls id = .returned)
    (hqueue : (s.lanes.queue i).countP (Entry.isMark id) = 0) : before <+: s.dequeued i := by
  rcases h.mark with hbefore | ⟨ahead, behind, hmark, hbefore⟩
  · rw [hpc] at hbefore
    cases hbefore
  · rcases List.append_eq_append_iff.mp hmark with ⟨rest, -, hrest⟩ | ⟨rest, hrest, -⟩
    · have hmem : (Entry.flush id : Entry μ) ∈ s.lanes.queue i := by simp [hrest]
      exact absurd (List.countP_eq_zero.mp hqueue _ hmem) (by simp [Entry.isMark])
    · exact hbefore.trans ⟨rest, hrest.symm⟩

end Barrier

section Progress

variable {n : Nat} {μ : Type} {s t : LaneSystem n μ} {a : LaneSystemAct n μ} {id : Nat} {i : Fin n}

def FlushPc.remaining : FlushPc n → Nat
  | .looking k => 2 * (n - k) + 1
  | .pushing i => 2 * (n - i)
  | .returned => 0

theorem LaneSystem.Step.call_cases (hstep : s.Step a t) (hid : id < s.nextFlush) :
    t.calls id = s.calls id ∧ a ≠ .call id ∨
      a = .call id ∧ (t.calls id).remaining < (s.calls id).remaining := by
  cases hstep with
  | begun => exact .inl ⟨Function.update_of_ne hid.ne _ _, by simp⟩
  | referenced id' j hpc hopen =>
    by_cases heq : id = id'
    · subst heq
      refine .inr ⟨rfl, ?_⟩
      simp only [takeReference, Function.update_self, hpc, FlushPc.remaining]
      omega
    · exact .inl ⟨Function.update_of_ne heq _ _, by simp [Ne.symm heq]⟩
  | passed id' j hpc hclosed =>
    by_cases heq : id = id'
    · subst heq
      refine .inr ⟨rfl, ?_⟩
      simp only [passLane, Function.update_self, hpc, FlushPc.remaining]
      omega
    · exact .inl ⟨Function.update_of_ne heq _ _, by simp [Ne.symm heq]⟩
  | marked id' j hpc =>
    by_cases heq : id = id'
    · subst heq
      refine .inr ⟨rfl, ?_⟩
      simp only [leaveMark, Function.update_self, hpc, FlushPc.remaining]
      omega
    · exact .inl ⟨Function.update_of_ne heq _ _, by simp [Ne.symm heq]⟩
  | finished id' k hpc hk =>
    by_cases heq : id = id'
    · subst heq
      refine .inr ⟨rfl, ?_⟩
      simp only [finishCall, Function.update_self, hpc, FlushPc.remaining]
      omega
    · exact .inl ⟨Function.update_of_ne heq _ _, by simp [Ne.symm heq]⟩
  | _ => exact .inl ⟨rfl, by simp⟩

theorem LaneSystem.Step.nextFlush_le (hstep : s.Step a t) : s.nextFlush ≤ t.nextFlush := by
  cases hstep with
  | begun => exact Nat.le_succ _
  | _ => exact le_rfl

theorem LaneSystem.Step.lane_cases (hstep : s.Step a t) (hpc : s.calls id = .returned) (i : Fin n) :
    (t.lanes.queue i = s.lanes.queue i ∧ t.held i = s.held i ∧
        (a = .lane i → s.lanes.queue i = [] ∧ s.held i = none)) ∨
      (∃ e : Entry μ, e.isMark id = false ∧ t.lanes.queue i = s.lanes.queue i ++ [e] ∧ t.held i = s.held i ∧
        a ≠ .lane i) ∨
      (s.held i ≠ none ∧ t.held i = none ∧ t.lanes.queue i = s.lanes.queue i) ∨
      ∃ e q, s.held i = none ∧ s.lanes.queue i = e :: q ∧ t.lanes.queue i = q ∧
        (t.held i = some id ↔ e.isMark id = true) := by
  cases hstep with
  | distributed limit interests m j hopen =>
    by_cases hij : i = j
    · subst hij
      exact .inr (.inl ⟨.message m, rfl, Function.update_self .., rfl, by simp⟩)
    · exact .inl ⟨Function.update_of_ne hij _ _, rfl, by simp⟩
  | marked id' j hcall =>
    by_cases hij : i = j
    · subst hij
      have hne : id' ≠ id := by
        rintro rfl
        rw [hpc] at hcall
        cases hcall
      exact .inr (.inl ⟨.flush id', by simp [Entry.isMark, hne], Function.update_self .., rfl, by simp⟩)
    · exact .inl ⟨Function.update_of_ne hij _ _, rfl, by simp⟩
  | observed j id' hheld =>
    by_cases hij : i = j
    · subst hij
      exact .inr (.inr (.inl ⟨by simp [hheld], Function.update_self .., rfl⟩))
    · exact .inl ⟨rfl, Function.update_of_ne hij _ _, by simp [Ne.symm hij]⟩
  | idle j hheld hqueue => exact .inl ⟨rfl, rfl, by rintro ⟨⟩; exact ⟨hqueue, hheld⟩⟩
  | tookMark j id' q hheld hqueue =>
    by_cases hij : i = j
    · subst hij
      refine .inr (.inr (.inr ⟨_, q, hheld, hqueue, Function.update_self .., ?_⟩))
      simp [takeMark, Entry.isMark]
    · exact .inl ⟨Function.update_of_ne hij _ _, Function.update_of_ne hij _ _, by simp [Ne.symm hij]⟩
  | tookMessage j m q hheld hqueue =>
    by_cases hij : i = j
    · subst hij
      refine .inr (.inr (.inr ⟨_, q, hheld, hqueue, Function.update_self .., ?_⟩))
      simp [takeMessage, Entry.isMark, hheld]
    · exact .inl ⟨Function.update_of_ne hij _ _, rfl, by simp [Ne.symm hij]⟩
  | _ => exact .inl ⟨rfl, rfl, by simp⟩

def lastMark (id : Nat) : List (Entry μ) → Nat
  | [] => 0
  | e :: q => if (e :: q).any (Entry.isMark id) then lastMark id q + 1 else 0

theorem lastMark_append {e : Entry μ} (he : e.isMark id = false) (q : List (Entry μ)) :
    lastMark id (q ++ [e]) = lastMark id q := by
  induction q with
  | nil => simp [lastMark, he]
  | cons e' q ih =>
    rw [List.cons_append, lastMark, lastMark, ih]
    simp [he]

def laneRank (id : Nat) (i : Fin n) (s : LaneSystem n μ) : Nat :=
  2 * lastMark id (s.lanes.queue i) + if s.held i = none then 0 else 1

theorem LaneSystem.Step.lane_progress (hstep : s.Step a t) (hpc : s.calls id = .returned)
    (hmarks : laneMarks id (s.lanes.queue i) (s.held i) ≠ 0) :
    laneRank id i t ≤ laneRank id i s ∧ (a = .lane i → laneRank id i t < laneRank id i s) := by
  unfold laneRank
  rcases hstep.lane_cases hpc i with ⟨hqueue, hheld, hlane⟩ | ⟨e, he, hqueue, hheld, hlane⟩ |
    ⟨hheld, hheld', hqueue⟩ | ⟨e, q, hheld, hqueue, hqueue', -⟩
  · rw [hqueue, hheld]
    refine ⟨le_rfl, fun hact => ?_⟩
    obtain ⟨hempty, hnone⟩ := hlane hact
    rw [hempty, hnone] at hmarks
    exact absurd rfl hmarks
  · rw [hqueue, hheld, lastMark_append he]
    exact ⟨le_rfl, fun hact => absurd hact hlane⟩
  · rw [hqueue, hheld', if_pos rfl, if_neg hheld]
    exact ⟨by omega, fun _ => by omega⟩
  · have hany : (e :: q).any (Entry.isMark id) = true := by
      by_contra hnone
      apply hmarks
      rw [hqueue, hheld, laneMarks, List.countP_eq_zero.mpr (by simpa using hnone)]
      rfl
    rw [hqueue, hqueue', hheld, lastMark, if_pos hany, if_pos rfl]
    split_ifs <;> exact ⟨by omega, fun _ => by omega⟩

theorem LaneSystem.Step.lane_cleared (hstep : s.Step a t) (hpc : s.calls id = .returned)
    (hmarks : laneMarks id (s.lanes.queue i) (s.held i) = 0) :
    laneMarks id (t.lanes.queue i) (t.held i) = 0 := by
  rcases hstep.lane_cases hpc i with ⟨hqueue, hheld, -⟩ | ⟨e, he, hqueue, hheld, -⟩ |
    ⟨hheld, hheld', hqueue⟩ | ⟨e, q, hheld, hqueue, hqueue', hheld'⟩
  · rw [hqueue, hheld]
    exact hmarks
  · rw [hqueue, hheld, laneMarks_append, hmarks]
    simp [he]
  · rw [hqueue, hheld']
    rw [laneMarks] at hmarks ⊢
    simp only [reduceCtorEq, if_false]
    omega
  · rw [laneMarks] at hmarks ⊢
    rw [hqueue, List.countP_cons] at hmarks
    rw [hqueue']
    simp only [hheld']
    omega

end Progress

section Executions

variable {n : Nat} {μ : Type}

structure FairlyRun (e : Execution (laneSystemStep (n := n) (μ := μ))) : Prop where
  calls : ∀ t id, (e.state t).calls id ≠ .returned → ∃ u ≥ t, e.act u = .call id
  lanes : ∀ t i, (e.state t).opened i = true → ∃ u ≥ t, e.act u = .lane i

variable {e : Execution (laneSystemStep (n := n) (μ := μ))} {id : Nat}

def CallReturned (id : Nat) (s : LaneSystem n μ) : Prop := id < s.nextFlush ∧ s.calls id = .returned

theorem CallReturned.step {s t : LaneSystem n μ} {a : LaneSystemAct n μ} (h : CallReturned id s)
    (hstep : laneSystemStep s a = some t) : CallReturned id t := by
  have hs := LaneSystem.step_of hstep
  refine ⟨h.1.trans_le hs.nextFlush_le, ?_⟩
  rcases hs.call_cases h.1 with ⟨hpc, -⟩ | ⟨-, hlt⟩
  · rw [hpc]
    exact h.2
  · rw [h.2] at hlt
    exact absurd hlt (Nat.not_lt_zero _)

theorem FairlyRun.call_returns (hfair : FairlyRun e) {t : Nat} (hid : id < (e.state t).nextFlush) :
    ∃ u ≥ t, CallReturned id (e.state u) := by
  by_cases hpc : (e.state t).calls id = .returned
  · exact ⟨t, le_rfl, hid, hpc⟩
  · refine e.eventually (fun s => id < s.nextFlush ∧ s.calls id ≠ .returned) (CallReturned id)
      (fun s => (s.calls id).remaining) (fun a => a = .call id) ?_ ?_ ⟨hid, hpc⟩
    · rintro s a s' ⟨hlt, hne⟩ hstep
      have hs := LaneSystem.step_of hstep
      have hlt' := hlt.trans_le hs.nextFlush_le
      by_cases hdone : s'.calls id = .returned
      · exact .inl ⟨hlt', hdone⟩
      · refine .inr ⟨⟨hlt', hdone⟩, ?_⟩
        rcases hs.call_cases hlt with ⟨hsame, hact⟩ | ⟨-, hless⟩
        · rw [hsame]
          exact ⟨le_rfl, fun hc => absurd hc hact⟩
        · exact ⟨hless.le, fun _ => hless⟩
    · intro u hu
      exact hfair.calls u id hu.2

/-- The call is back, and lane `i` has observed its mark. -/
def LaneCleared (id : Nat) (i : Fin n) (s : LaneSystem n μ) : Prop :=
  CallReturned id s ∧ laneMarks id (s.lanes.queue i) (s.held i) = 0

theorem FairlyRun.lane_clears (hfair : FairlyRun e) (hinv : ∀ u, (e.state u).Inv) {t : Nat}
    (h : CallReturned id (e.state t)) (i : Fin n) : ∃ u ≥ t, LaneCleared id i (e.state u) := by
  by_cases hmarks : laneMarks id ((e.state t).lanes.queue i) ((e.state t).held i) = 0
  · exact ⟨t, le_rfl, h, hmarks⟩
  · refine e.eventually (fun s => CallReturned id s ∧ laneMarks id (s.lanes.queue i) (s.held i) ≠ 0)
      (LaneCleared id i) (laneRank id i) (fun a => a = .lane i) ?_ ?_ ⟨h, hmarks⟩
    · rintro s a s' ⟨hreturned, hne⟩ hstep
      by_cases hdone : laneMarks id (s'.lanes.queue i) (s'.held i) = 0
      · exact .inl ⟨hreturned.step hstep, hdone⟩
      · exact .inr ⟨⟨hreturned.step hstep, hdone⟩, (LaneSystem.step_of hstep).lane_progress hreturned.2 hne⟩
    · rintro u ⟨-, hne⟩
      apply hfair.lanes u i
      apply (hinv u).opened_of_queue
      by_contra hnone
      push Not at hnone
      rw [hnone.1, hnone.2] at hne
      exact hne rfl

theorem FairlyRun.all_clear (hfair : FairlyRun e) (hinv : ∀ u, (e.state u).Inv) {t : Nat}
    (hid : id < (e.state t).nextFlush) :
    ∃ u ≥ t, ∀ v ≥ u, CallReturned id (e.state v) ∧ (e.state v).marks id = 0 := by
  obtain ⟨t₁, ht₁, hreturned⟩ := hfair.call_returns hid
  choose clear hclear hcleared using hfair.lane_clears hinv hreturned
  refine ⟨t₁ + ∑ i, clear i, by omega, fun v hv => ⟨?_, Finset.sum_eq_zero fun i _ => ?_⟩⟩
  · exact e.invariant (fun _ _ _ hret hstep => hret.step hstep) (by omega : t₁ ≤ v) hreturned
  · have hle : clear i ≤ ∑ i, clear i := Finset.single_le_sum (fun _ _ => Nat.zero_le _) (Finset.mem_univ i)
    have hkept : LaneCleared id i (e.state v) := by
      refine e.invariant ?_ (by omega : clear i ≤ v) (hcleared i)
      rintro s a s' ⟨hret, hzero⟩ hstep
      exact ⟨hret.step hstep, (LaneSystem.step_of hstep).lane_cleared hret.2 hzero⟩
    exact hkept.2

theorem inv_of_run {s t : LaneSystem n μ} {as : List (LaneSystemAct n μ)} (hn : n < 2 ^ 31)
    (h : Run laneSystemStep (fun _ _ => True) s as t) (hs : s.Inv) : t.Inv :=
  h.invariant (fun _ _ _ hi _ hstep => hi.step hn (LaneSystem.step_of hstep)) hs

theorem Covers.begin {s : LaneSystem n μ} {i : Fin n} (hopen : s.opened i = true) :
    (beginFlush s).Covers s.nextFlush i (s.history i) :=
  ⟨Nat.lt_succ_self _, hopen, List.prefix_rfl, .inl (by simp [beginFlush, FlushPc.Before])⟩

/-- A flush request is a barrier. In every run its event is triggered at most once, and then each lane
that had a fifo when the call began has dequeued all that was enqueued to it until then; and when calls
are continued and lanes keep dequeuing, it is triggered. -/
theorem flush_is_barrier (n : Nat) (μ : Type) (hn : n < 2 ^ 31) :
    (∀ (as bs : List (LaneSystemAct n μ)) (s t : LaneSystem n μ),
      Run laneSystemStep (fun _ _ => True) (LaneSystem.start n μ) as s →
      Run laneSystemStep (fun _ _ => True) (beginFlush s) bs t →
        t.triggered.count s.nextFlush ≤ 1 ∧
          (s.nextFlush ∈ t.triggered → ∀ i, s.opened i = true →
            s.dequeued i ++ s.lanes.queue i <+: t.dequeued i)) ∧
    ∀ e : Execution (laneSystemStep (n := n) (μ := μ)), e.state 0 = LaneSystem.start n μ → FairlyRun e →
      ∀ t, e.act t = .flush →
        ∃ u > t, ∀ v ≥ u, (e.state v).triggered.count (e.state t).nextFlush = 1 := by
  constructor
  · intro as bs s t hbefore hafter
    have hs := inv_of_run hn hbefore .start
    have ht := inv_of_run hn hafter hs.begun
    have hbegun : s.nextFlush < t.nextFlush :=
      hafter.invariant (I := fun t => s.nextFlush < t.nextFlush)
        (fun _ _ _ hi _ hstep => hi.trans_le (LaneSystem.step_of hstep).nextFlush_le) (Nat.lt_succ_self _)
    have hreq := ht.started _ hbegun
    refine ⟨hreq.triggered_le_one, fun hmem i hopen => ?_⟩
    have hone : t.triggered.count s.nextFlush = 1 :=
      le_antisymm hreq.triggered_le_one (List.count_pos_iff.mpr hmem)
    obtain ⟨hpc, hmarks⟩ := hreq.triggered_eq_one_iff.mp hone
    have hcovers : t.Covers s.nextFlush i (s.history i) :=
      hafter.invariant (I := fun t => t.Covers s.nextFlush i (s.history i))
        (fun _ _ _ hi _ hstep => hi.step (LaneSystem.step_of hstep)) (Covers.begin hopen)
    have hlane := (Finset.sum_eq_zero_iff.mp hmarks) i (Finset.mem_univ i)
    exact hcovers.dequeued hpc (Nat.eq_zero_of_add_eq_zero_right hlane)
  · intro e hstart hfair t hflush
    have hinv : ∀ u, (e.state u).Inv := fun u =>
      e.invariant (fun _ _ _ hi hstep => hi.step hn (LaneSystem.step_of hstep))
        (Nat.zero_le u) (hstart ▸ .start)
    have hnext : (e.state t).nextFlush < (e.state (t + 1)).nextFlush := by
      have hstep := e.next t
      rw [hflush] at hstep
      rw [← Option.some.inj hstep]
      exact Nat.lt_succ_self _
    obtain ⟨u, hu, hclear⟩ := hfair.all_clear hinv hnext
    refine ⟨u, hu, fun v hv => ?_⟩
    obtain ⟨⟨hbegun, hpc⟩, hmarks⟩ := hclear v hv
    exact ((hinv v).started _ hbegun).triggered_eq_one_iff.mpr ⟨hpc, hmarks⟩

end Executions

def barrierActs : ℕ → LaneSystemAct 1 Nat
  | 0 => .openLane 0
  | 1 => .distribute 0 (fun _ => 1) 7 0
  | 2 => .flush
  | 3 | 4 | 5 => .call 0
  | _ => .lane 0

def barrierState : ℕ → LaneSystem 1 Nat
  | 0 => LaneSystem.start 1 Nat
  | t + 1 => (laneSystemStep (barrierState t) (barrierActs t)).getD (barrierState t)

theorem barrierState_idle (t : ℕ) : barrierState (t + 9) = barrierState 9 := by
  induction t with
  | zero => rfl
  | succ t ih =>
    have hact : barrierActs (t + 9) = .lane 0 := rfl
    rw [Nat.add_right_comm, barrierState, ih, hact]
    rfl

def barrierExecution : Execution (laneSystemStep (n := 1) (μ := Nat)) where
  state := barrierState
  act := barrierActs
  next t := by
    rcases Nat.lt_or_ge t 9 with ht | ht
    · interval_cases t <;> rfl
    · obtain ⟨k, rfl⟩ := Nat.exists_eq_add_of_le' ht
      have hact : barrierActs (k + 9) = .lane 0 := rfl
      rw [hact, barrierState_idle k, Nat.add_right_comm k 9 1, barrierState_idle (k + 1)]
      rfl

theorem barrierState_returned {t : ℕ} (ht : 6 ≤ t) (id : Nat) : (barrierState t).calls id = .returned := by
  rcases Nat.lt_or_ge t 9 with ht' | ht'
  · interval_cases t <;> cases id <;> rfl
  · obtain ⟨k, rfl⟩ := Nat.exists_eq_add_of_le' ht'
    rw [barrierState_idle]
    cases id <;> rfl

theorem flush_is_barrier_one :
    FairlyRun barrierExecution ∧
      ∃ u > 2, ∀ v ≥ u, (barrierExecution.state v).triggered.count
        (barrierExecution.state 2).nextFlush = 1 := by
  have hfair : FairlyRun barrierExecution := by
    refine ⟨fun t id hpc => ?_, fun t i _ => ⟨t + 6, by omega, ?_⟩⟩
    · rcases Nat.lt_or_ge t 6 with ht | ht
      · cases id with
        | zero => exact ⟨5, by omega, rfl⟩
        | succ k =>
          refine absurd ?_ hpc
          interval_cases t <;> rfl
      · exact absurd (barrierState_returned ht id) hpc
    · rw [Subsingleton.elim i 0]
      rfl
  exact ⟨hfair, (flush_is_barrier 1 Nat (by norm_num)).2 barrierExecution rfl hfair 2 rfl⟩

/-- Once the event of a request is triggered, which is when the request is freed, its call is over and
no lane has a mark of it, waiting or dequeued. -/
theorem flush_request_unused_once_freed {n : Nat} {μ : Type} (hn : n < 2 ^ 31) {as : List (LaneSystemAct n μ)}
    {s : LaneSystem n μ} {id : Nat} (hrun : Run laneSystemStep (fun _ _ => True) (LaneSystem.start n μ) as s)
    (hfreed : id ∈ s.triggered) :
    s.calls id = .returned ∧ ∀ i, s.held i ≠ some id ∧ ∀ entry ∈ s.lanes.queue i,
      Entry.isMark id entry = false := by
  have hinv := inv_of_run hn hrun .start
  have hcount : 0 < s.triggered.count id := List.count_pos_iff.mpr hfreed
  have hstarted : id < s.nextFlush := by
    by_contra hfresh
    have hnone := (hinv.fresh id (Nat.not_lt.mp hfresh)).2.2
    omega
  have hrequest := hinv.started id hstarted
  obtain ⟨hpc, hmarks⟩ := hrequest.triggered_eq_one_iff.mp (le_antisymm hrequest.triggered_le_one hcount)
  refine ⟨hpc, fun i => ?_⟩
  have hlane : laneMarks id (s.lanes.queue i) (s.held i) = 0 :=
    Finset.sum_eq_zero_iff.mp hmarks i (Finset.mem_univ i)
  obtain ⟨hqueue, hheld⟩ := Nat.add_eq_zero_iff.mp hlane
  refine ⟨fun hsome => ?_, fun entry hentry => ?_⟩
  · rw [if_pos hsome] at hheld
    cases hheld
  · exact Bool.not_eq_true _ ▸ List.countP_eq_zero.mp hqueue entry hentry

theorem barrier_request_unused :
    (barrierState 9).held 0 ≠ some 0 ∧ 0 ∈ (barrierState 9).triggered := by
  have hfreed : 0 ∈ (barrierState 9).triggered := by decide +kernel
  have hrun : Run laneSystemStep (fun _ _ => True) (LaneSystem.start 1 Nat) ((List.range 9).map barrierActs)
      (barrierState 9) :=
    @Run.of_execute _ _ _ _ _ _ _ (fun _ _ => true) (fun _ _ _ => trivial) rfl
  exact ⟨((flush_request_unused_once_freed (by norm_num) hrun hfreed).2 0).1, hfreed⟩

end Reconnoiter
