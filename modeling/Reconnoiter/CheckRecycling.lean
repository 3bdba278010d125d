import Reconnoiter.ReplicationQuiescence

/-! Deleted checks are kept until the peers have fetched what changed about them, and are removed by the
recycler. -/

namespace Reconnoiter

section

variable {P ι : Type} [DecidableEq P] [DecidableEq ι]

omit [DecidableEq P] in
/-- `noit_cluster_checkid_replication_pending_internal`. The table of peers is walked in the order
`order`, unless someone else has its lock. -/
def Producer.checkidReplicationPending (pr : Producer P ι) (order : List P)
    (locked : Bool) (checkid : ι) : Bool :=
  locked || order.any fun p => (pr.queue p .checks).any fun n => n.id = checkid

omit [DecidableEq P] in
/-- The scan of `check_recycle_bin_processor_internal` over the checks, each with its deleted flag: the
checks that are removed, the last one first. -/
def recycledChecks (pr : Producer P ι) (order : List P) (locked : ι → Bool)
    (polls : List (ι × Bool)) : List ι :=
  ((polls.filter fun check => check.2 && !pr.checkidReplicationPending order (locked check.1) check.1).map
    Prod.fst).reverse

variable {pr : Producer P ι} {order : List P} {locked : ι → Bool} {polls : List (ι × Bool)} {checkid : ι}

omit [DecidableEq P] in
theorem mem_recycledChecks :
    checkid ∈ recycledChecks pr order locked polls ↔
      (checkid, true) ∈ polls ∧ pr.checkidReplicationPending order (locked checkid) checkid = false := by
  rw [recycledChecks, List.mem_reverse, List.mem_map]
  constructor
  · rintro ⟨⟨id, deleted⟩, hmem, rfl⟩
    obtain ⟨hpoll, hcond⟩ := List.mem_filter.mp hmem
    rw [Bool.and_eq_true, Bool.not_eq_true'] at hcond
    exact ⟨hcond.1 ▸ hpoll, hcond.2⟩
  · rintro ⟨hpoll, hdone⟩
    exact ⟨(checkid, true), List.mem_filter.mpr ⟨hpoll, by simp [hdone]⟩, rfl⟩

variable {cnOk : P → Bool} {p : P} {w : Watched P ι} {batchSize : Nat}

/-- In every run without a restart of the producer in which the producer answers the peer as one on
record and does not disturb the rebuild of its queue, a check is removed only when it is deleted and the
peer has processed every change of it that was advertised to the peer since its queue was last built. -/
theorem recycled_only_if_processed {acts : List (WatchedAct P ι)}
    (hrun : Run (watchedStep batchSize cnOk) (Answered cnOk p) (Watched.start P ι) acts w)
    (horder : ∀ q, q ∈ order ↔ (w.cluster.producer.peers q).isSome)
    (hp : (w.cluster.producer.peers p).isSome)
    (hmem : checkid ∈ recycledChecks w.cluster.producer order locked polls) :
    (checkid, true) ∈ polls ∧ ∀ c ∈ w.advertised p .checks, c.id = checkid →
      (w.cluster.links p).Processed w.cluster.producer.boot .checks c := by
  obtain ⟨hdeleted, hdone⟩ := mem_recycledChecks.mp hmem
  refine ⟨hdeleted, fun c hc hid => ?_⟩
  have hinv : w.Inv cnOk p := hrun.invariant (fun _ _ _ hi hok hs => hi.step hok hs) Watched.inv_start
  apply (hinv.kept hp .checks c hc).resolve_left
  intro hqueue
  rw [Producer.checkidReplicationPending, Bool.or_eq_false_iff, List.any_eq_false] at hdone
  have hnone := hdone.2 p ((horder p).mpr hp)
  rw [Bool.not_eq_true, List.any_eq_false] at hnone
  exact hnone c hqueue (decide_eq_true hid)

end

theorem recycled_after_fetch :
    (7 : Nat) ∈ recycledChecks quietState.cluster.producer [()] (fun _ => false)
    [(5, true), (7, true), (8, false)] ∧
      ∀ c ∈ quietState.advertised () .checks, c.id = 7 →
        (quietState.cluster.links ()).Processed quietState.cluster.producer.boot .checks c := by
  have hmem : (7 : Nat) ∈ recycledChecks quietState.cluster.producer [()] (fun _ => false)
      [(5, true), (7, true), (8, false)] := by decide +kernel
  exact ⟨hmem, (recycled_only_if_processed quietState_run (fun q => by cases q; decide +kernel)
    (by decide +kernel) hmem).2⟩

end Reconnoiter
