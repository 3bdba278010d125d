import Reconnoiter.ReplicationSafety

/-! When a peer stops asking. A peer acknowledges what it has fetched by the number it sends
with the next request, and it has nothing more to do when the last number acknowledged is the
one the producer advertises. The producer does not restart here; the peers may. -/

namespace Reconnoiter

/-- The cluster, with what the producer has advertised to each node since it last built the
node's queue. -/
structure Watched (P ι : Type) where
  cluster : Cluster P ι
  advertised : P → Kind → List (Change ι)

def Watched.start (P ι : Type) : Watched P ι := ⟨Cluster.start P ι, fun _ _ => []⟩

inductive WatchedAct (P ι : Type) where
  | act (act : ClusterAct P ι)
  | peerRestart (p : P)

section

variable {P ι : Type} [DecidableEq P] [DecidableEq ι]

omit [DecidableEq P] [DecidableEq ι] in
def addNew (s t : Producer P ι) (id : ι) (changes : Kind → List (Change ι)) : Kind → List (Change ι) :=
  fun k => if s.produced k < t.produced k then changes k ++ [⟨id, t.produced k⟩] else changes k

omit [DecidableEq P] [DecidableEq ι] in
@[simp] theorem addNew_self (pr : Producer P ι) (id : ι) (changes : Kind → List (Change ι)) :
    addNew pr pr id changes = changes := by
  funext k
  simp [addNew]

/-- A change is advertised from its mark on, also to a node that is not on record yet, and until
the rebuild of the node's queue, which advertises everything again under new numbers. -/
def advertise (s t : Producer P ι) (advertised : P → Kind → List (Change ι)) :
    ClusterAct P ι → P → Kind → List (Change ι)
  | .markCheck check => fun p => addNew s t check.checkid (advertised p)
  | .markFilter name => fun p => addNew s t name (advertised p)
  | .meet q boot => if s.bootOf q = boot then advertised else Function.update advertised q fun _ => []
  | .relistFilter q set => Function.update advertised q (addNew s t set.name (advertised q))
  | .relistCheck q check => Function.update advertised q (addNew s t check.checkid (advertised q))
  | _ => advertised

/-- The peers may restart, the producer does not. -/
def watchedStep (batchSize : Nat) (cnOk : P → Bool) (w : Watched P ι) :
    WatchedAct P ι → Option (Watched P ι)
  | .peerRestart p =>
    let link := w.cluster.links p
    let fresh := { (Link.start ι).consumer with jobs := link.consumer.jobs }
    some ⟨w.cluster.setLink p (link.setConsumer fresh), w.advertised⟩
  | .act .restart => none
  | .act act =>
    (clusterStep batchSize cnOk w.cluster act).map fun t =>
      ⟨t, advertise w.cluster.producer t.producer w.advertised act⟩

/-- The producer answers the peer's requests as those of a peer on record, under the name it
has in its certificate; it puts the peer on record with the boot time of a heartbeat, not with
the zero of a node it has not heard of; and while it empties the peer's queue it marks nothing
and does not answer the peer. -/
def Answered (cnOk : P → Bool) (p : P) (w : Watched P ι) : WatchedAct P ι → Prop
  | .act (.serve q _ _) => q = p → cnOk p = true ∧ (w.cluster.producer.peers p).isSome ∧
      (w.cluster.producer.rebuildOf p).clears = false
  | .act (.meet q boot) => q = p → (w.cluster.producer.peers p).isSome ∨ boot ≠ 0
  | .act (.markCheck _) => (w.cluster.producer.rebuildOf p).clears = false
  | .act (.markFilter _) => (w.cluster.producer.rebuildOf p).clears = false
  | _ => True

omit [DecidableEq ι] in
instance Answered.decidable (cnOk : P → Bool) (p : P) (w : Watched P ι) :
    (act : WatchedAct P ι) → Decidable (Answered cnOk p w act)
  | .peerRestart _ => isTrue trivial
  | .act (.serve q _ _) => inferInstanceAs (Decidable (q = p → cnOk p = true ∧ _ ∧ _ = false))
  | .act (.meet q boot) =>
    inferInstanceAs (Decidable (q = p → (w.cluster.producer.peers p).isSome = true ∨ ¬ boot = 0))
  | .act (.markCheck _) => inferInstanceAs (Decidable (_ = false))
  | .act (.markFilter _) => inferInstanceAs (Decidable (_ = false))
  | .act .restart => isTrue trivial
  | .act (.rebuild _) => isTrue trivial
  | .act (.relistFilter _ _) => isTrue trivial
  | .act (.relistCheck _ _) => isTrue trivial
  | .act (.beat _) => isTrue trivial
  | .act (.hear _ _ _) => isTrue trivial
  | .act (.request _) => isTrue trivial
  | .act (.process _ _ _) => isTrue trivial
  | .act (.giveUp _) => isTrue trivial
  | .act (.finish _ _) => isTrue trivial

omit [DecidableEq P] [DecidableEq ι] in
def Consumer.Quiet (batchSize : Nat) (c : Consumer) : Prop :=
  c.job = none ∧ (c.possiblyStartJob batchSize true).job = none

/-- Every change advertised to the peer up to the numbers it has available has been fetched
and processed with success, and is not in the queue for it any more. -/
def Watched.Acknowledged (w : Watched P ι) (p : P) : Prop :=
  ∀ k, ∀ c ∈ w.advertised p k, c.seq ≤ ((w.cluster.links p).consumer.inbound k).available →
    (w.cluster.links p).Processed w.cluster.producer.boot k c ∧ c ∉ w.cluster.producer.queue p k

end

theorem Consumer.Quiet.available_eq {batchSize : Nat} {c : Consumer} (h : c.Quiet batchSize) (k : Kind) :
    (c.inbound k).available = (c.inbound k).prevFetched := by
  obtain ⟨hjob, hquiet⟩ := h
  unfold possiblyStartJob at hquiet
  rw [hjob] at hquiet
  simp only [Bool.not_true, Bool.false_eq_true, if_false] at hquiet
  split_ifs at hquiet with hwork
  push Not at hwork
  cases k with
  | checks => exact hwork.2.2.1
  | filters => exact hwork.2.2.2

section

variable {P ι : Type}

def Producer.Trimmed (pr : Producer P ι) (p : P) (k : Kind) (x : Int) : Prop :=
  x ≤ 0 ∨ (pr.peers p).isSome ∧ x ≤ pr.produced k ∧ ∀ c ∈ pr.queue p k, x < c.seq

structure Link.Acked (pr : Producer P ι) (p : P) (l : Link ι) : Prop where
  inbound : ∀ k, pr.Trimmed p k (l.consumer.inbound k).prevFetched
  number : ∀ req ∈ l.requests, req.number ≤ l.consumer.jobs
  job : ∀ job, l.consumer.job = some job → job.number = l.consumer.jobs ∧
    (∀ req ∈ l.requests, req.number = job.number → req.prev = (job.spans req.kind).prev) ∧
    ∀ k, (job.spans k).success = true → pr.Trimmed p k (job.spans k).prev
  response : ∀ resp ∈ l.responses,
    resp.request ∈ l.requests ∧ pr.Trimmed p resp.request.kind resp.request.prev

structure Link.Calm (l : Link ι) : Prop where
  request : ∀ req ∈ l.requests, req.boot = 1
  job : ∀ job, l.consumer.job = some job → job.boot = 1 ∧ l.consumer.boot = 1
  fresh : l.consumer.boot ≠ 1 → ∀ k, (l.consumer.inbound k).available = 0

structure Cluster.Calm (s : Cluster P ι) : Prop where
  boot : s.producer.boot = 1
  beats : ∀ hb ∈ s.beats, hb.boot = 1
  links : ∀ p, (s.links p).Calm

variable {pr pr' : Producer P ι} {p : P} {l l' : Link ι} {batchSize : Nat} {inCluster : Bool}

theorem Producer.Trimmed.grows {k : Kind} {x : Int} (h : pr.Trimmed p k x) (hg : pr.Grows pr')
    (hknown : (pr.peers p).isSome → (pr'.peers p).isSome) : pr'.Trimmed p k x := by
  rcases h with h | ⟨hp, hle, hq⟩
  · exact .inl h
  · refine .inr ⟨hknown hp, hle.trans (hg.produced k), fun c hc => ?_⟩
    rcases hg.queue p k c hc with hc | hc
    · exact hq c hc
    · exact hle.trans_lt hc

theorem Link.Acked.grows (h : l.Acked pr p) (hg : pr.Grows pr')
    (hknown : (pr.peers p).isSome → (pr'.peers p).isSome) : l.Acked pr' p where
  inbound k := (h.inbound k).grows hg hknown
  number := h.number
  job job hj := by
    obtain ⟨hn, hr, hs⟩ := h.job job hj
    exact ⟨hn, hr, fun k ho => (hs k ho).grows hg hknown⟩
  response resp hr := ⟨(h.response resp hr).1, (h.response resp hr).2.grows hg hknown⟩

theorem calm_possiblyStartJob (h : l.Calm) (hboot : l.consumer.boot = 1) :
    (l.setConsumer (l.consumer.possiblyStartJob batchSize inCluster)).Calm := by
  rcases l.consumer.possiblyStartJob_cases batchSize inCluster with heq | ⟨-, todo, heq⟩
  · rw [heq]
    exact h
  · rw [heq]
    refine ⟨h.request, fun job hj => ?_, h.fresh⟩
    obtain rfl := Option.some.inj hj
    exact ⟨hboot, hboot⟩

theorem calm_hear (h : l.Calm) {hb : Heartbeat} (hboot : hb.boot = 1) :
    (l.setConsumer (l.consumer.updatePeer batchSize inCluster hb)).Calm := by
  unfold Consumer.updatePeer
  simp only
  apply calm_possiblyStartJob (l := l.setConsumer _)
  · split_ifs with hne
    · refine ⟨h.request, fun job hj => ⟨(h.job job hj).1, hboot⟩, fun hne' => absurd hboot hne'⟩
    · have hone : l.consumer.boot = 1 := (not_not.mp hne).trans hboot
      exact ⟨h.request, fun job hj => h.job job hj, fun hne' => absurd hone hne'⟩
  · split_ifs with hne
    · exact hboot
    · exact (not_not.mp hne).trans hboot

theorem calm_request (h : l.Calm) (hl : l.request = some l') : l'.Calm := by
  obtain ⟨number, boot, spans, kind, todo, hj, rfl⟩ := Link.request_eq hl
  refine ⟨fun req hreq => ?_, h.job, h.fresh⟩
  rcases List.mem_cons.mp hreq with rfl | hreq
  · exact (h.job _ hj).1
  · exact h.request req hreq

theorem calm_giveUp (h : l.Calm) (hl : l.giveUp = some l') : l'.Calm := by
  obtain ⟨number, boot, spans, kind, todo, hj, rfl⟩ := Link.giveUp_eq hl
  have hjob := h.job _ hj
  refine ⟨h.request, fun job he => ?_, h.fresh⟩
  obtain rfl := Option.some.inj he
  exact hjob

theorem calm_process [DecidableEq ι] {resp : Response ι} {result : Int} (h : l.Calm)
    (hl : l.process resp result = some l') : l'.Calm := by
  obtain ⟨number, boot, spans, todo, hj, -, -, rfl⟩ := Link.process_eq hl
  have hjob := h.job _ hj
  refine ⟨h.request, fun job he => ?_, h.fresh⟩
  obtain rfl := Option.some.inj he
  exact hjob

theorem calm_finish (h : l.Calm) (hl : l.finish batchSize inCluster = some l') : l'.Calm := by
  obtain ⟨job, hj, rfl⟩ := Link.finish_eq hl
  refine calm_possiblyStartJob (l := l.setConsumer _) ⟨h.request, fun job he => ?_, h.fresh⟩ (h.job job hj).2
  exact absurd he (by simp [Link.setConsumer])

theorem acked_possiblyStartJob (h : l.Acked pr p) :
    (l.setConsumer (l.consumer.possiblyStartJob batchSize inCluster)).Acked pr p := by
  rcases l.consumer.possiblyStartJob_cases batchSize inCluster with heq | ⟨-, todo, heq⟩
  · rw [heq]
    exact h
  · rw [heq]
    refine ⟨h.inbound, fun req hr => Nat.le_succ_of_le (h.number req hr), fun job hj => ?_, h.response⟩
    obtain rfl := Option.some.inj hj
    refine ⟨rfl, fun req hr hn => ?_, fun k ho => ?_⟩
    · have hle := h.number req hr
      simp only at hn
      omega
    · exact absurd ho (by simp [(Consumer.spanFor_bounds batchSize (l.consumer.inbound k)).1])

theorem acked_hear (h : l.Acked pr p) {hb : Heartbeat} :
    (l.setConsumer (l.consumer.updatePeer batchSize inCluster hb)).Acked pr p := by
  unfold Consumer.updatePeer
  simp only
  apply acked_possiblyStartJob (l := l.setConsumer _)
  split_ifs with hne
  · exact ⟨fun _ => .inl le_rfl, h.number, h.job, h.response⟩
  · exact ⟨h.inbound, h.number, h.job, h.response⟩

theorem acked_request (h : l.Acked pr p) (hl : l.request = some l') : l'.Acked pr p := by
  obtain ⟨number, boot, spans, kind, todo, hj, rfl⟩ := Link.request_eq hl
  obtain ⟨hn, hr, hs⟩ := h.job _ hj
  refine ⟨h.inbound, fun req hreq => ?_, fun job he => ?_, fun resp hresp => ?_⟩
  · rcases List.mem_cons.mp hreq with rfl | hreq
    · exact hn.le
    · exact h.number req hreq
  · obtain rfl := Option.some.inj (hj.symm.trans he)
    refine ⟨hn, fun req hreq hnum => ?_, hs⟩
    rcases List.mem_cons.mp hreq with rfl | hreq
    · rfl
    · exact hr req hreq hnum
  · exact ⟨List.mem_cons_of_mem _ (h.response resp hresp).1, (h.response resp hresp).2⟩

theorem acked_giveUp (h : l.Acked pr p) (hl : l.giveUp = some l') : l'.Acked pr p := by
  obtain ⟨number, boot, spans, kind, todo, hj, rfl⟩ := Link.giveUp_eq hl
  have hjob := h.job _ hj
  refine ⟨h.inbound, h.number, fun job he => ?_, h.response⟩
  obtain rfl := Option.some.inj he
  exact hjob

theorem acked_process [DecidableEq ι] {resp : Response ι} {result : Int} (h : l.Acked pr p)
    (hl : l.process resp result = some l') : l'.Acked pr p := by
  obtain ⟨number, boot, spans, todo, hj, hmem, hnum, rfl⟩ := Link.process_eq hl
  obtain ⟨hn, hr, hs⟩ := h.job _ hj
  obtain ⟨hreq, htrim⟩ := h.response resp hmem
  have hprev : resp.request.prev = (spans resp.request.kind).prev := hr _ hreq hnum
  refine ⟨h.inbound, h.number, fun job he => ?_, h.response⟩
  obtain rfl := Option.some.inj he
  refine ⟨hn, fun req hreq' hnum' => ?_, fun k ho => ?_⟩
  · rw [hr req hreq' hnum']
    by_cases hk : req.kind = resp.request.kind
    · simp [hk]
    · simp [hk]
  · by_cases hk : k = resp.request.kind
    · subst hk
      simp only [Function.update_self]
      rwa [← hprev]
    · simp only [Function.update_of_ne hk] at ho ⊢
      exact hs k ho

theorem acked_finish (h : l.Acked pr p) (hl : l.finish batchSize inCluster = some l') : l'.Acked pr p := by
  obtain ⟨job, hj, rfl⟩ := Link.finish_eq hl
  refine acked_possiblyStartJob (l := l.setConsumer _)
    ⟨fun k => ?_, h.number, fun job he => absurd he (by simp [Link.setConsumer]), h.response⟩
  simp only [Link.setConsumer, Consumer.finishSpan]
  split_ifs with hs
  · exact (h.job job hj).2.2 k hs.1
  · exact h.inbound k

end

section

variable {P ι : Type} [DecidableEq P] {pr : Producer P ι}

@[simp] theorem Producer.isSome_mark (kind : Kind) (id : ι) (vpeer : Option P) (p : P) :
    ((pr.mark kind id vpeer).peers p).isSome = (pr.peers p).isSome := by
  simp [mark]

theorem Producer.isSome_rebuildChangelog (q p : P) :
    ((pr.rebuildChangelog q).peers p).isSome = (pr.peers p).isSome := by
  by_cases hpq : p = q
  · subst hpq
    simp [rebuildChangelog, setPeer]
  · simp [rebuildChangelog, setPeer, hpq]

theorem Producer.isSome_updatePeer (q : P) (boot : Nat) (p : P) :
    ((pr.updatePeer q boot).peers p).isSome = (decide (p = q) || (pr.peers p).isSome) := by
  by_cases hpq : p = q
  · subst hpq
    simp [updatePeer, setPeer]
  · simp [updatePeer, setPeer, hpq]

theorem Producer.isSome_xmlChanges [DecidableEq ι] (cnOk : P → Bool) (q : P) (req : Request)
    (present : ι → Bool) (p : P) :
    ((pr.xmlChanges cnOk q req present).1.peers p).isSome = (pr.peers p).isSome := by
  unfold xmlChanges
  cases hq : pr.peers q with
  | none => rfl
  | some out =>
    simp only
    split_ifs
    · by_cases hpq : p = q
      · subst hpq
        simp [setPeer, hq]
      · simp [setPeer, hpq]
    · rfl

omit [DecidableEq P] in
theorem lt_of_mem_eatSeen {queue : List (Change ι)} {prevEnd : Int} {c : Change ι}
    (hs : queue.Pairwise fun c d => c.seq < d.seq) (hc : c ∈ Producer.eatSeen prevEnd queue) :
    prevEnd < c.seq := by
  induction queue with
  | nil => exact absurd hc List.not_mem_nil
  | cons d queue ih =>
    obtain ⟨hd, hs⟩ := List.pairwise_cons.mp hs
    by_cases hle : d.seq ≤ prevEnd
    · rw [Producer.eatSeen, List.dropWhile_cons_of_pos (by simpa using hle)] at hc
      exact ih hs hc
    · rw [Producer.eatSeen, List.dropWhile_cons_of_neg (by simpa using hle)] at hc
      rcases List.mem_cons.mp hc with rfl | hc
      · exact not_le.mp hle
      · exact (not_le.mp hle).trans (hd c hc)

theorem Producer.trimmed_xmlChanges [DecidableEq ι] (h : pr.WF) {cnOk : P → Bool}
    {p : P} (hcn : cnOk p = true)
    (hp : (pr.peers p).isSome) {req : Request} (hle : req.prev ≤ pr.produced req.kind) (present : ι → Bool) :
    (pr.xmlChanges cnOk p req present).1.Trimmed p req.kind req.prev := by
  have hg := grows_xmlChanges h cnOk p req present
  refine .inr ⟨(isSome_xmlChanges cnOk p req present p).trans hp, hle.trans (hg.produced _), fun c hc => ?_⟩
  rw [queue_xmlChanges, if_pos ⟨rfl, hcn, rfl⟩] at hc
  exact lt_of_mem_eatSeen (h.sorted p req.kind) hc

end

structure Watched.Inv {P ι : Type} (cnOk : P → Bool) (p : P) (w : Watched P ι) : Prop where
  cluster : w.cluster.Inv cnOk
  calm : w.cluster.Calm
  acked : (w.cluster.links p).Acked w.cluster.producer p
  positive : ∀ k, ∀ c ∈ w.advertised p k, 0 < c.seq
  kept : (w.cluster.producer.peers p).isSome → ∀ k, ∀ c ∈ w.advertised p k,
    c ∈ w.cluster.producer.queue p k ∨ (w.cluster.links p).Processed w.cluster.producer.boot k c
  cleared : (w.cluster.producer.rebuildOf p).clears = true → ∀ k, w.advertised p k = []

section

variable {P ι : Type} {cnOk : P → Bool} {p : P} {w w' : Watched P ι} {batchSize : Nat}

theorem Watched.inv_start : (Watched.start P ι).Inv cnOk p where
  cluster := Cluster.inv_start
  calm := by
    refine ⟨rfl, fun hb hm => absurd hm List.not_mem_nil, fun q => ⟨fun req hr => absurd hr List.not_mem_nil,
      fun job hj => ?_, fun _ _ => rfl⟩⟩
    simp [Watched.start, Cluster.start, Link.start] at hj
  acked := by
    refine ⟨fun k => .inl le_rfl, fun req hr => absurd hr List.not_mem_nil, fun job hj => ?_,
      fun resp hr => absurd hr List.not_mem_nil⟩
    simp [Watched.start, Cluster.start, Link.start] at hj
  positive _ _ hc := absurd hc List.not_mem_nil
  kept _ _ _ hc := absurd hc List.not_mem_nil
  cleared _ _ := rfl

theorem Watched.Inv.growsTo (h : w.Inv cnOk p) {producer : Producer P ι}
    {advertised : P → Kind → List (Change ι)} (hg : w.cluster.producer.Grows producer)
    (hknown : (w.cluster.producer.peers p).isSome → (producer.peers p).isSome)
    (hpos : ∀ k, ∀ c ∈ advertised p k, 0 < c.seq)
    (hkept : (producer.peers p).isSome → ∀ k, ∀ c ∈ advertised p k,
      c ∈ producer.queue p k ∨ (w.cluster.links p).Processed w.cluster.producer.boot k c)
    (hcleared : (producer.rebuildOf p).clears = true → ∀ k, advertised p k = []) :
    (⟨{ w.cluster with producer := producer }, advertised⟩ : Watched P ι).Inv cnOk p where
  cluster := h.cluster.grows hg
  calm := ⟨hg.boot.trans h.calm.boot, h.calm.beats, h.calm.links⟩
  acked := h.acked.grows hg hknown
  positive := hpos
  kept hp k c hc := by
    rw [hg.boot]
    exact hkept hp k c hc
  cleared := hcleared

variable [DecidableEq P]

theorem Watched.Inv.setLink (h : w.Inv cnOk p) {q : P} {link : Link ι}
    (hinv : (w.cluster.setLink q link).Inv cnOk) (hcalm : link.Calm)
    (hlink : q = p → link.Acked w.cluster.producer p ∧ (w.cluster.links p).processed ⊆ link.processed) :
    (⟨w.cluster.setLink q link, w.advertised⟩ : Watched P ι).Inv cnOk p := by
  refine ⟨hinv, ⟨h.calm.boot, h.calm.beats, fun q' => ?_⟩, ?_, h.positive, fun hp k c hc => ?_, h.cleared⟩
  · by_cases hq : q' = q
    · subst hq
      simpa [Cluster.setLink] using hcalm
    · simpa [Cluster.setLink, hq] using h.calm.links q'
  · by_cases hq : p = q
    · subst hq
      simpa [Cluster.setLink] using (hlink rfl).1
    · simpa [Cluster.setLink, hq] using h.acked
  · refine (h.kept hp k c hc).imp id fun hproc => ?_
    by_cases hq : p = q
    · subst hq
      simpa [Cluster.setLink] using hproc.mono (hlink rfl).2
    · simpa [Cluster.setLink, hq] using hproc

theorem Watched.Inv.mark (h : w.Inv cnOk p) (kind : Kind) (id : ι) (vpeer : Option P)
    {advertised : P → Kind → List (Change ι)}
    (hclears : vpeer = none ∨ vpeer = some p → (w.cluster.producer.rebuildOf p).clears = false)
    (hadv : advertised p = if vpeer = none ∨ vpeer = some p then
        addNew w.cluster.producer (w.cluster.producer.mark kind id vpeer) id (w.advertised p)
      else w.advertised p) :
    (⟨{ w.cluster with producer := w.cluster.producer.mark kind id vpeer }, advertised⟩ : Watched
      P ι).Inv cnOk p := by
  have hwf := h.cluster.wf
  have hext := Producer.extends_mark hwf kind id vpeer
  have hproduced := w.cluster.producer.produced_mark kind id vpeer
  -- either the mark is not for the peer, or what is new in the list is new in the queue
  have hnew : ∀ k, ∀ c ∈ advertised p k, c ∈ w.advertised p k ∨
      (vpeer = none ∨ vpeer = some p) ∧ k = kind ∧ c = ⟨id, w.cluster.producer.produced k + 1⟩ := by
    intro k c hc
    rw [hadv] at hc
    by_cases hv : vpeer = none ∨ vpeer = some p
    · rw [if_pos hv, addNew, hproduced] at hc
      by_cases hk : k = kind
      · rw [if_pos hk, if_pos (by omega)] at hc
        rcases List.mem_append.mp hc with hc | hc
        · exact .inl hc
        · exact .inr ⟨hv, hk, List.mem_singleton.mp hc⟩
      · rw [if_neg hk, if_neg (by omega)] at hc
        exact .inl hc
    · rw [if_neg hv] at hc
      exact .inl hc
  refine h.growsTo hext.toGrows (fun hp => by rwa [Producer.isSome_mark]) (fun k c hc => ?_)
    (fun hp k c hc => ?_) (fun hp k => ?_)
  · rcases hnew k c hc with hc | ⟨-, -, rfl⟩
    · exact h.positive k c hc
    · exact Int.lt_add_one_of_le (hwf.nonneg k)
  · rw [Producer.isSome_mark] at hp
    rcases hnew k c hc with hc | ⟨hv, hk, rfl⟩
    · exact (h.kept hp k c hc).imp_left fun hin => hext.kept p k hin
    · rw [Producer.queue_mark, if_pos ⟨hp, hv, hk⟩]
      exact .inl (List.mem_append_right _ (List.mem_singleton_self _))
  · rw [Producer.rebuildOf_mark] at hp
    rw [hadv, if_neg fun hv => absurd (hp.symm.trans (hclears hv)) (by decide)]
    exact h.cleared hp k

theorem Watched.Inv.relist (h : w.Inv cnOk p) {q : P} {kind : Kind}
    (hphase : w.cluster.producer.rebuildOf q = .marking kind) (kind' : Kind) (id : ι) :
    (⟨{ w.cluster with producer := w.cluster.producer.mark kind' id (some q) }, Function.update w.advertised q
      (addNew w.cluster.producer (w.cluster.producer.mark kind' id (some q)) id (w.advertised q))⟩ :
        Watched P ι).Inv cnOk p := by
  refine h.mark kind' id (some q) (fun hq => ?_) ?_
  · obtain rfl := Option.some.inj (hq.resolve_left (by simp))
    rw [hphase]
    rfl
  · by_cases hpq : p = q
    · subst hpq
      simp
    · simp [hpq, Ne.symm hpq]

theorem Watched.Inv.meet (h : w.Inv cnOk p) (q : P) (boot : Nat)
    (hok : q = p → (w.cluster.producer.peers p).isSome ∨ boot ≠ 0) :
    (⟨{ w.cluster with producer := w.cluster.producer.updatePeer q boot },
      if w.cluster.producer.bootOf q = boot then w.advertised
      else Function.update w.advertised q fun _ => []⟩ : Watched P ι).Inv cnOk p := by
  have hext := Producer.extends_updatePeer h.cluster.wf q boot
  have hsome := @Producer.isSome_updatePeer P ι _ w.cluster.producer q boot p
  have hknown : (w.cluster.producer.peers p).isSome →
      ((w.cluster.producer.updatePeer q boot).peers p).isSome := by
    intro hp
    rw [hsome, hp, Bool.or_true]
  by_cases hreset : p = q ∧ w.cluster.producer.bootOf q ≠ boot
  · obtain ⟨rfl, hboot⟩ := hreset
    rw [if_neg hboot]
    refine h.growsTo hext.toGrows hknown (fun k c hc => ?_) (fun _ k c hc => ?_) fun _ k => ?_
    · simp at hc
    · simp at hc
    · simp
  · have hadv : (if w.cluster.producer.bootOf q = boot then w.advertised
        else Function.update w.advertised q fun _ => []) p = w.advertised p := by
      split_ifs with hboot
      · rfl
      · rw [Function.update_of_ne fun hpq => hreset ⟨hpq, hboot⟩]
    have hp : ((w.cluster.producer.updatePeer q boot).peers p).isSome →
      (w.cluster.producer.peers p).isSome := by
      rw [hsome]
      intro hp
      by_cases hpq : p = q
      · subst hpq
        cases hout : w.cluster.producer.peers p with
        | some out => rfl
        | none =>
          have hne : boot ≠ 0 := (hok rfl).resolve_left (by simp [hout])
          exact absurd ⟨rfl, by simpa [Producer.bootOf, hout] using hne.symm⟩ hreset
      · simpa [hpq] using hp
    refine h.growsTo hext.toGrows hknown (fun k c hc => ?_) (fun hp' k c hc => ?_) fun hclears k => ?_
    · rw [hadv] at hc
      exact h.positive k c hc
    · rw [hadv] at hc
      exact (h.kept (hp hp') k c hc).imp_left fun hin => hext.kept p k hin
    · rw [hadv]
      rw [Producer.rebuildOf_updatePeer, if_neg hreset] at hclears
      exact h.cleared hclears k

theorem Watched.Inv.rebuild (h : w.Inv cnOk p) (q : P) :
    (⟨{ w.cluster with producer := w.cluster.producer.rebuildChangelog q }, w.advertised⟩ : Watched P ι).Inv
      cnOk p := by
  have hsome := @Producer.isSome_rebuildChangelog P ι _ w.cluster.producer q p
  refine h.growsTo (Producer.grows_rebuildChangelog h.cluster.wf q) (fun hp => hsome.trans hp) h.positive
    (fun hp k c hc => ?_) (fun hclears => h.cleared (Producer.clears_of_rebuildChangelog hclears))
  refine (h.kept (hsome.symm.trans hp) k c hc).imp_left fun hin => ?_
  cases hclears : (w.cluster.producer.rebuildOf q).clears with
  | false => rwa [(Producer.queue_rebuildChangelog q p k).2 hclears]
  | true =>
    by_cases hpq : p = q
    · subst hpq
      rw [h.cleared hclears k] at hc
      exact absurd hc List.not_mem_nil
    · rwa [Producer.rebuildChangelog, Producer.queue_setPeer_of_ne hpq]

variable [DecidableEq ι]

theorem Cluster.Calm.stepOk {s t : Cluster P ι} (h : s.Calm) {act : ClusterAct P ι}
    (hs : clusterStep batchSize cnOk s act = some t) : SameIncarnation s act := by
  cases act with
  | hear q i inCluster =>
    intro hb hi hne k _
    refine (h.links q).fresh (fun hone => hne ?_) k
    rw [hone, h.beats hb (List.mem_of_getElem? hi)]
  | serve q req present =>
    simp only [clusterStep] at hs
    split_ifs at hs with hreq
    exact ((h.links q).request req hreq).trans h.boot.symm
  | finish q inCluster =>
    intro job hj k _
    obtain ⟨hjob, hboot⟩ := (h.links q).job job hj
    exact hjob.trans hboot.symm
  | _ => trivial

theorem Watched.Inv.serve (h : w.Inv cnOk p) {q : P} {req : Request} {present : ι → Bool}
    (hok : q = p → cnOk p = true ∧ (w.cluster.producer.peers p).isSome ∧
      (w.cluster.producer.rebuildOf p).clears = false) {t : Cluster P ι}
    (hs : clusterStep batchSize cnOk w.cluster (.serve q req present) = some t) :
    (⟨t, w.advertised⟩ : Watched P ι).Inv cnOk p := by
  have hstep := h.calm.stepOk hs
  have hinv := inv_clusterStep h.cluster hstep hs
  simp only [clusterStep] at hs
  split_ifs at hs with hmem
  obtain rfl := Option.some.inj hs
  have hg := Producer.grows_xmlChanges h.cluster.wf cnOk q req present
  obtain ⟨hreq, -, -, hgone⟩ := Producer.xmlChanges_spec h.cluster.wf cnOk q req present
  have hsome := @Producer.isSome_xmlChanges P ι _ w.cluster.producer _ cnOk q req present p
  have hgrown := h.acked.grows hg (fun hp => hsome.trans hp)
  refine ⟨hinv, ⟨hg.boot.trans h.calm.boot, h.calm.beats, fun q' => ?_⟩, ?_, h.positive, fun hp k c hc => ?_,
    fun hclears => h.cleared (by rwa [← Producer.rebuildOf_xmlChanges cnOk q req present p])⟩
  · by_cases hq : q' = q
    · subst hq
      have hcalm := h.calm.links q'
      simpa [Cluster.setLink] using ⟨hcalm.request, hcalm.job, hcalm.fresh⟩
    · simpa [Cluster.setLink, hq] using h.calm.links q'
  · by_cases hq : p = q
    · subst hq
      obtain ⟨hcn, hp, -⟩ := hok rfl
      have hle := (((h.cluster.links p hcn).request req hmem).2.2 hstep).1.1
      simp only [Cluster.setLink, Function.update_self]
      refine ⟨hgrown.inbound, hgrown.number, hgrown.job, fun resp hr => ?_⟩
      rcases List.mem_cons.mp hr with rfl | hr
      · rw [hreq]
        exact ⟨hmem, Producer.trimmed_xmlChanges h.cluster.wf hcn hp hle present⟩
      · exact hgrown.response resp hr
    · simpa [Cluster.setLink, hq] using hgrown
  · have hproc : ∀ c, (w.cluster.links p).Processed w.cluster.producer.boot k c →
        (Function.update w.cluster.links q { w.cluster.links q with
          responses := (w.cluster.producer.xmlChanges cnOk q req present).2 ::
            (w.cluster.links q).responses } p).Processed
          (w.cluster.producer.xmlChanges cnOk q req present).1.boot k c := by
      intro c hproc
      rw [hg.boot]
      by_cases hq : p = q
      · subst hq
        rw [Function.update_self]
        exact hproc
      · rw [Function.update_of_ne hq]
        exact hproc
    rcases h.kept (hsome.symm.trans hp) k c hc with hin | hdone
    · by_cases hstill : c ∈ (w.cluster.producer.xmlChanges cnOk q req present).1.queue p k
      · exact .inl hstill
      · obtain ⟨rfl, hcn, rfl, hle⟩ := hgone p k c hin hstill
        exact .inr (hproc c ((((h.cluster.links p hcn).request req hmem).2.2 hstep).1.2 c hin hle))
    · exact .inr (hproc c hdone)

theorem Watched.Inv.act (h : w.Inv cnOk p) {act : ClusterAct P ι} {t : Cluster P ι} (hne : act ≠ .restart)
    (hok : Answered cnOk p w (.act act)) (ht : clusterStep batchSize cnOk w.cluster act = some t) :
    (⟨t, advertise w.cluster.producer t.producer w.advertised act⟩ : Watched P ι).Inv cnOk p := by
  cases act with
  | restart => exact absurd rfl hne
  | meet q boot =>
    simp only [clusterStep] at ht
    split_ifs at ht
    obtain rfl := Option.some.inj ht
    exact h.meet q boot hok
  | rebuild q =>
    obtain rfl := Option.some.inj ht
    exact h.rebuild q
  | relistFilter q set =>
    simp only [clusterStep] at ht
    split_ifs at ht with hphase
    obtain rfl := Option.some.inj ht
    simp only [advertise, Producer.buildFilterChangelog, Producer.markFilterChanged]
    split_ifs
    · exact h.relist hphase _ _
    · simpa using h
  | relistCheck q check =>
    simp only [clusterStep] at ht
    split_ifs at ht with hphase
    obtain rfl := Option.some.inj ht
    simp only [advertise, Producer.buildCheckChangelog, Producer.markCheckChanged]
    split_ifs
    · simpa using h
    · simpa using h
    · exact h.relist hphase _ _
    · simpa using h
  | markCheck check =>
    obtain rfl := Option.some.inj ht
    simp only [advertise, Producer.markCheckChanged]
    split_ifs
    · simpa using h
    · simpa using h
    · exact h.mark .checks check.checkid none (fun _ => hok) (by simp)
  | markFilter name =>
    obtain rfl := Option.some.inj ht
    exact h.mark .filters name none (fun _ => hok) (by simp [advertise, Producer.markFilterChanged])
  | beat carries =>
    have hinv := inv_clusterStep h.cluster (h.calm.stepOk ht) ht
    obtain rfl := Option.some.inj ht
    refine ⟨hinv, ⟨h.calm.boot, fun hb hm => ?_, h.calm.links⟩, h.acked, h.positive, h.kept, h.cleared⟩
    rcases List.mem_cons.mp hm with rfl | hm
    · exact h.calm.boot
    · exact h.calm.beats hb hm
  | serve q req present =>
    exact h.serve hok ht
  | hear q i inCluster =>
    have hinv := inv_clusterStep h.cluster (h.calm.stepOk ht) ht
    obtain ⟨hb, hi, rfl⟩ := Option.map_eq_some_iff.mp ht
    refine h.setLink hinv (calm_hear (h.calm.links q) (h.calm.beats hb (List.mem_of_getElem? hi))) ?_
    rintro rfl
    exact ⟨acked_hear h.acked, List.Subset.refl _⟩
  | request q =>
    have hinv := inv_clusterStep h.cluster (h.calm.stepOk ht) ht
    obtain ⟨l, hl, rfl⟩ := Option.map_eq_some_iff.mp ht
    refine h.setLink hinv (calm_request (h.calm.links q) hl) ?_
    rintro rfl
    refine ⟨acked_request h.acked hl, ?_⟩
    obtain ⟨_, _, _, _, _, _, rfl⟩ := Link.request_eq hl
    exact List.Subset.refl _
  | process q resp result =>
    have hinv := inv_clusterStep h.cluster (h.calm.stepOk ht) ht
    obtain ⟨l, hl, rfl⟩ := Option.map_eq_some_iff.mp ht
    refine h.setLink hinv (calm_process (h.calm.links q) hl) ?_
    rintro rfl
    refine ⟨acked_process h.acked hl, ?_⟩
    obtain ⟨_, _, _, _, _, _, _, rfl⟩ := Link.process_eq hl
    simp only
    split_ifs
    · exact List.subset_cons_self _ _
    · exact List.Subset.refl _
  | giveUp q =>
    have hinv := inv_clusterStep h.cluster (h.calm.stepOk ht) ht
    obtain ⟨l, hl, rfl⟩ := Option.map_eq_some_iff.mp ht
    refine h.setLink hinv (calm_giveUp (h.calm.links q) hl) ?_
    rintro rfl
    refine ⟨acked_giveUp h.acked hl, ?_⟩
    obtain ⟨_, _, _, _, _, _, rfl⟩ := Link.giveUp_eq hl
    exact List.Subset.refl _
  | finish q inCluster =>
    have hinv := inv_clusterStep h.cluster (h.calm.stepOk ht) ht
    obtain ⟨l, hl, rfl⟩ := Option.map_eq_some_iff.mp ht
    refine h.setLink hinv (calm_finish (h.calm.links q) hl) ?_
    rintro rfl
    refine ⟨acked_finish h.acked hl, ?_⟩
    obtain ⟨_, _, rfl⟩ := Link.finish_eq hl
    exact List.Subset.refl _

theorem Watched.Inv.step (h : w.Inv cnOk p) {act : WatchedAct P ι} (hok : Answered cnOk p w act)
    (hs : watchedStep batchSize cnOk w act = some w') : w'.Inv cnOk p := by
  cases act with
  | peerRestart q =>
    obtain rfl := Option.some.inj hs
    have hnone : ∀ job, (Link.start ι).consumer.job ≠ some job := by simp [Link.start]
    refine h.setLink (h.cluster.setLink fun hcn => ?_)
      ⟨(h.calm.links q).request, fun job hj => ?_, fun _ _ => rfl⟩ ?_
    · have hl := h.cluster.links q hcn
      refine ⟨Nat.zero_le _, fun hb => ?_, fun job hj => absurd hj (hnone job), hl.request, hl.response⟩
      rw [h.calm.boot] at hb
      exact absurd hb (by simp [Link.setConsumer, Link.start])
    · exact absurd hj (hnone job)
    · rintro rfl
      exact ⟨⟨fun _ => .inl le_rfl, h.acked.number, fun job hj => absurd hj (hnone job), h.acked.response⟩,
        List.Subset.refl _⟩
  | act act =>
    have hne : act ≠ .restart := by
      rintro rfl
      exact absurd hs (by simp [watchedStep])
    have hmap : watchedStep batchSize cnOk w (.act act) =
      (clusterStep batchSize cnOk w.cluster act).map fun t =>
        ⟨t, advertise w.cluster.producer t.producer w.advertised act⟩ := by
      cases act with
      | restart => exact absurd rfl hne
      | _ => rfl
    rw [hmap] at hs
    obtain ⟨t, ht, rfl⟩ := Option.map_eq_some_iff.mp hs
    exact h.act hne hok ht

/-- In every run without a restart of the producer in which the producer answers the peer as
one on record, the peer is quiet only when all that was advertised is acknowledged. -/
theorem quiet_only_when_acknowledged {acts : List (WatchedAct P ι)}
    (hrun : Run (watchedStep batchSize cnOk) (Answered cnOk p) (Watched.start P ι) acts w)
    (hquiet : (w.cluster.links p).consumer.Quiet batchSize) : w.Acknowledged p := by
  have hinv : w.Inv cnOk p :=
    hrun.invariant (fun _ _ _ hi hok hs => hi.step hok hs) Watched.inv_start
  intro k c hc hle
  rw [hquiet.available_eq k] at hle
  rcases hinv.acked.inbound k with hzero | ⟨hp, -, htrim⟩
  · exact absurd (hinv.positive k c hc) (not_lt.mpr (hle.trans hzero))
  · have hout : c ∉ w.cluster.producer.queue p k := fun hin => absurd (htrim c hin) (not_lt.mpr hle)
    exact ⟨(hinv.kept hp k c hc).resolve_left hout, hout⟩

end

def askTwice (covers : List (Change Nat)) (nodes : List Nat) (first second : Option Int) (result : Int) :
    List (WatchedAct Unit Nat) :=
  [.act (.markCheck ⟨7, false, 1⟩), .act (.beat fun _ => true), .act (.hear () 0 true), .act (.request ()),
    .act (.serve () ⟨1, 1, .checks, 0, 1⟩ fun _ => true),
    .act (.process () ⟨⟨1, 1, .checks, 0, 1⟩, 1, covers, nodes, first⟩ result), .act (.finish () true),
    .act (.request ()), .act (.serve () ⟨2, 1, .checks, 1, 1⟩ fun _ => true),
    .act (.process () ⟨⟨2, 1, .checks, 1, 1⟩, 1, [], [], second⟩ 0), .act (.finish () true)]

def quietActs : List (WatchedAct Unit Nat) :=
  (meetActs []).map .act ++ askTwice [⟨7, 1⟩] [7] (some 1) (some 0) 1

def quietState : Watched Unit Nat :=
  (Run.execute (watchedStep 10000 fun _ => true) (fun w act => Answered (fun _ => true) () w act)
    (Watched.start Unit Nat) quietActs).get (by decide +kernel)

theorem quietState_run : Run (watchedStep 10000 fun _ => true) (Answered (fun _ => true) ())
    (Watched.start Unit Nat)
    quietActs quietState :=
  Run.of_execute (fun _ _ h => of_decide_eq_true h) (Option.some_get _).symm

theorem quiet_after_fetch :
    (quietState.cluster.links ()).consumer.Quiet 10000 ∧
    (⟨7, 1⟩ : Change Nat) ∈ quietState.advertised () .checks ∧
      quietState.Acknowledged () := by
  have hquiet : (quietState.cluster.links ()).consumer.Quiet 10000 :=
    ⟨by decide +kernel, by decide +kernel⟩
  exact ⟨hquiet, by decide +kernel, quiet_only_when_acknowledged quietState_run hquiet⟩

def wrongNameState : Watched Unit Nat :=
  (Run.execute (watchedStep 10000 fun _ => false) (fun _ _ => true) (Watched.start Unit Nat)
    ((meetActs []).map .act ++ askTwice [] [] none none 0)).get (by decide +kernel)

theorem quiet_unacknowledged :
    (∃ acts, Run (watchedStep 10000 fun _ => false) (fun _ _ => True)
      (Watched.start Unit Nat) acts wrongNameState) ∧
      (wrongNameState.cluster.links ()).consumer.Quiet 10000 ∧
      ((wrongNameState.cluster.links ()).consumer.inbound .checks).available = 1 ∧
      (⟨7, 1⟩ : Change Nat) ∈ wrongNameState.advertised () .checks ∧
      (⟨7, 1⟩ : Change Nat) ∈ wrongNameState.cluster.producer.queue () .checks ∧
      ¬ wrongNameState.Acknowledged () := by
  have hrun : Run (watchedStep 10000 fun _ => false) (fun _ _ => True) (Watched.start Unit Nat)
      ((meetActs []).map .act ++ askTwice [] [] none none 0) wrongNameState :=
    @Run.of_execute _ _ _ _ _ _ _ (fun _ _ => true) (fun _ _ _ => trivial) (Option.some_get _).symm
  have hadv : (⟨7, 1⟩ : Change Nat) ∈ wrongNameState.advertised () .checks := by decide +kernel
  have hqueue : (⟨7, 1⟩ : Change Nat) ∈ wrongNameState.cluster.producer.queue () .checks := by decide +kernel
  have havail : ((wrongNameState.cluster.links ()).consumer.inbound .checks).available = 1 := by
    decide +kernel
  refine ⟨⟨_, hrun⟩, ⟨by decide +kernel, by decide +kernel⟩, havail, hadv, hqueue, fun hack => ?_⟩
  exact (hack .checks _ hadv (by rw [havail])).2 hqueue

end Reconnoiter
