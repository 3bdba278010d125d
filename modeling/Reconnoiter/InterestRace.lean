import Reconnoiter.DirectorInterests
import Reconnoiter.Optimistic

/-! Threads that adjust their interest in one metric at the same time. A set of interests is never
changed in place: it is copied, and the adjusted copy takes its place if no other has taken it
meanwhile. -/

namespace Reconnoiter

variable {n : Nat}

/-- What `noit_metric_director_adjust_metric_interest_on_thread` stores or swaps in for the set that it
found. -/
def adjusted (lane : Fin n) (adj : Int) : Option (Interests n) → Option (Interests n)
  | none => if adj < 0 then none else some (Function.update 0 lane (.ofNat adj.toNat))
  | some v => some (Function.update v lane (adjustInterest (v lane) adj))

theorem toNat_adjustInterest {cnt : UInt16} {adj : Int} (hcnt : cnt.toNat < ushrtMax)
    (hlo : 0 ≤ cnt.toNat + adj) (hhi : cnt.toNat + adj < ushrtMax) :
    ((adjustInterest cnt adj).toNat : Int) = cnt.toNat + adj := by
  have hmax : ushrtMax = 65535 := rfl
  rw [adjustInterest, if_neg hcnt.ne]
  dsimp only
  have hsize : (cnt.toNat + adj).toNat < UInt16.size := by simp only [UInt16.size]; omega
  rw [if_neg hlo.not_gt, if_neg hhi.le.not_gt, UInt16.toNat_ofNat_of_lt' hsize]
  exact Int.toNat_of_nonneg hlo

def countOf (i : Fin n) (v : Option (Interests n)) : Int := (v.elim 0 (· i)).toNat

theorem countOf_adjusted_self (i : Fin n) {v : Option (Interests n)} {adj : Int}
    (hcnt : countOf i v < ushrtMax) (hlo : 0 ≤ countOf i v + adj) (hhi : countOf i v + adj < ushrtMax) :
    countOf i (adjusted i adj v) = countOf i v + adj := by
  cases v with
  | none =>
    have hzero : countOf (n := n) i none = 0 := rfl
    rw [hzero, zero_add] at hlo hhi ⊢
    rw [adjusted, if_neg hlo.not_gt, countOf, Option.elim_some, Function.update_self]
    have hmax : ushrtMax = 65535 := rfl
    have hsize : adj.toNat < UInt16.size := by simp only [UInt16.size]; omega
    rw [UInt16.toNat_ofNat_of_lt' hsize]
    exact Int.toNat_of_nonneg hlo
  | some v =>
    rw [adjusted, countOf, Option.elim_some, Function.update_self]
    exact toNat_adjustInterest (Int.ofNat_lt.mp hcnt) hlo hhi

theorem countOf_adjusted_of_ne {i lane : Fin n} (h : lane ≠ i) (v : Option (Interests n)) (adj : Int) :
    countOf i (adjusted lane adj v) = countOf i v := by
  cases v with
  | none =>
    dsimp only [adjusted]
    split_ifs
    · rfl
    · simp [countOf, Function.update_of_ne h.symm]
  | some v => simp [countOf, adjusted, Function.update_of_ne h.symm]

variable [NeZero n] {id : Uuid} {metric : Bytes}

/-- A call is a thread and its adjustment. The version stands for the address of the set, which is not
used again while a call may know it; a first set is stored where there is still none. -/
def adjustStep (n : Nat) [NeZero n] :
    Optimistic (Option (Interests n)) (Int × Int) → OptimisticAct (Int × Int) →
      Option (Optimistic (Option (Interests n)) (Int × Int)) :=
  Optimistic.step (fun op => adjusted (safeThreadId n op.1) op.2) fun op v => v.isNone && decide (op.2 < 0)

/-- One adjustment after the other. -/
def adjustAll (id : Uuid) (metric : Bytes) (effects : List (Nat × Int × Int)) : IdLevel n :=
  effects.foldl (fun table e => (adjustMetricInterestOnThread table e.2.1 id metric e.2.2).1) fun _ => none

theorem retrieve_adjustMetricInterestOnThread (table : IdLevel n) (threadId adj : Int) :
    (adjustMetricInterestOnThread table threadId id metric adj).1.retrieve id metric =
      adjusted (safeThreadId n threadId) adj (table.retrieve id metric) := by
  rw [adjustMetricInterestOnThread]
  cases hv : table.retrieve id metric with
  | none =>
    dsimp only [adjusted]
    split_ifs
    · rw [IdLevel.retrieve] at hv ⊢
      cases htable : table id with
      | none => simp
      | some level =>
        rw [htable] at hv
        simpa using hv
    · simp [IdLevel.store, IdLevel.retrieve]
  | some v => simp [IdLevel.store, IdLevel.retrieve, adjusted]

theorem retrieve_adjustAll (effects : List (Nat × Int × Int)) :
    (adjustAll (n := n) id metric effects).retrieve id metric =
      effects.foldl (fun v e => adjusted (safeThreadId n e.2.1) e.2.2 v) none := by
  induction effects using List.reverseRecOn with
  | nil => rfl
  | append_singleton l e ih =>
    rw [adjustAll, List.foldl_append, List.foldl_append, ← ih, adjustAll]
    exact retrieve_adjustMetricInterestOnThread ..

/-- What a lane has asked for, less what it has given back. -/
def laneSum (i : Fin n) (effects : List (Nat × Int × Int)) : Int :=
  ((effects.filter fun e => safeThreadId n e.2.1 = i).map (·.2.2)).sum

theorem laneSum_append_singleton (i : Fin n) (l : List (Nat × Int × Int)) (e : Nat × Int × Int) :
    laneSum i (l ++ [e]) = laneSum i l + if safeThreadId n e.2.1 = i then e.2.2 else 0 := by
  rw [laneSum, laneSum, List.filter_append, List.map_append, List.sum_append]
  split_ifs with hi <;> simp [hi]

theorem countOf_foldl_adjusted (i : Fin n) {effects : List (Nat × Int × Int)}
    (h : ∀ l, l <+: effects → 0 ≤ laneSum i l ∧ laneSum i l < ushrtMax) :
    countOf i (effects.foldl (fun v e => adjusted (safeThreadId n e.2.1) e.2.2 v) none) =
      laneSum i effects := by
  induction effects using List.reverseRecOn with
  | nil => rfl
  | append_singleton l e ih =>
    have hl := ih fun l' hl' => h l' (hl'.trans (List.prefix_append _ _))
    obtain ⟨hlo, hhi⟩ := h _ List.prefix_rfl
    have hbefore := (h l (List.prefix_append _ _)).2
    rw [laneSum_append_singleton] at hlo hhi ⊢
    rw [List.foldl_append, List.foldl_cons, List.foldl_nil]
    rw [← hl] at hlo hhi hbefore ⊢
    split_ifs at hlo hhi ⊢ with hi
    · subst hi
      exact countOf_adjusted_self _ hbefore hlo hhi
    · rw [countOf_adjusted_of_ne hi, add_zero]

/-- However the calls interleave, the set of interests is what some sequence of whole calls leaves, in
which every call that returned takes part once. So no adjustment is lost, and a lane whose sum never
leaves the range of the counts has that sum. -/
theorem adjustments_not_lost (id : Uuid) (metric : Bytes) {acts : List (OptimisticAct (Int × Int))}
    {s : Optimistic (Option (Interests n)) (Int × Int)}
    (hrun : Run (adjustStep n) (fun _ _ => True) (.start none) acts s) :
    s.value = (adjustAll id metric s.effects).retrieve id metric ∧ (s.effects.map Prod.fst).Nodup ∧
      (∀ c op, (c, op) ∈ s.effects ↔ s.calls c = some (op, .returned)) ∧
      ∀ i, (∀ l, l <+: s.effects → 0 ≤ laneSum i l ∧ laneSum i l < ushrtMax) →
        countOf i s.value = laneSum i s.effects := by
  have hidle : ∀ (op : Int × Int) (v : Option (Interests n)), (v.isNone && decide (op.2 < 0)) = true →
      adjusted (safeThreadId n op.1) op.2 v = v := by
    intro op v hidle
    obtain ⟨hnone, hneg⟩ := Bool.and_eq_true_iff.mp hidle
    rw [Option.isNone_iff_eq_none.mp hnone, adjusted, if_pos (of_decide_eq_true hneg)]
  have hinv := Optimistic.inv_of_run hidle hrun
  refine ⟨hinv.value.trans (retrieve_adjustAll _).symm, hinv.once, hinv.effects, fun i hi => ?_⟩
  rw [hinv.value]
  exact countOf_foldl_adjusted i hi

/-- Both calls find no set; the second fails to store its own and adjusts the first one's. -/
def racedInterests : List (OptimisticAct (Int × Int)) :=
  [.begin 0 (0, 1), .begin 1 (1, 2), .advance 0, .advance 1, .advance 0, .advance 1, .advance 1, .advance 1]

def racedEntry : Optimistic (Option (Interests 2)) (Int × Int) :=
  (Run.execute (adjustStep 2) (fun _ _ => true) (.start none) racedInterests).get (by decide +kernel)

theorem adjustments_not_lost_raced :
    racedEntry.effects = [(0, 0, 1), (1, 1, 2)] ∧ countOf 0 racedEntry.value = 1 ∧
      countOf 1 racedEntry.value = 2 := by
  have hrun : Run (adjustStep 2) (fun _ _ => True) (.start none) racedInterests racedEntry :=
    Run.of_execute (fun _ _ _ => trivial) (Option.some_get _).symm
  have heffects : racedEntry.effects = [(0, 0, 1), (1, 1, 2)] := by decide +kernel
  have hcount := (adjustments_not_lost Uuid.zero [] hrun).2.2.2
  rw [heffects] at hcount
  refine ⟨heffects, (hcount 0 ?_).trans (by decide +kernel), (hcount 1 ?_).trans (by decide +kernel)⟩ <;>
  · intro l hl
    rw [← List.mem_inits] at hl
    revert l
    decide +kernel

end Reconnoiter
