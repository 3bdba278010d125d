import Reconnoiter.Replication

/-! When a change may leave the producer's queue for a peer. Every number a peer
may send as the end of what it has seen stands for changes it has processed, as
long as the number goes to the incarnation it was learnt from. -/

namespace Reconnoiter

section

variable {P ι : Type}

structure Producer.WF (pr : Producer P ι) : Prop where
  nonneg : ∀ k, 0 ≤ pr.produced k
  sorted : ∀ p k, (pr.queue p k).Pairwise fun c d => c.seq < d.seq
  range : ∀ p k, ∀ c ∈ pr.queue p k, 0 < c.seq ∧ c.seq ≤ pr.produced k

/-- What becomes of the producer between restarts: changes are taken out of the
queues, and new ones get numbers not used before. -/
structure Producer.Grows (pr pr' : Producer P ι) : Prop where
  wf : pr'.WF
  boot : pr'.boot = pr.boot
  produced : ∀ k, pr.produced k ≤ pr'.produced k
  queue : ∀ p k, ∀ c ∈ pr'.queue p k, c ∈ pr.queue p k ∨ pr.produced k < c.seq

structure Producer.Extends (pr pr' : Producer P ι) : Prop extends pr.Grows pr' where
  kept : ∀ p k, pr.queue p k ⊆ pr'.queue p k

variable {pr pr' pr'' : Producer P ι}

theorem Producer.wf_empty (boot : Nat) : (⟨boot, fun _ => 0, fun _ => none⟩ : Producer P ι).WF :=
  ⟨fun _ => le_rfl, fun _ _ => List.Pairwise.nil, fun _ _ _ hc => absurd hc List.not_mem_nil⟩

theorem Producer.Extends.refl (h : pr.WF) : pr.Extends pr :=
  ⟨⟨h, rfl, fun _ => le_rfl, fun _ _ _ hc => Or.inl hc⟩, fun _ _ _ hc => hc⟩

variable [DecidableEq P]

theorem Producer.queue_mark (pr : Producer P ι) (kind : Kind) (id : ι) (vpeer : Option P) (p : P)
    (k : Kind) :
    (pr.mark kind id vpeer).queue p k =
      if (pr.peers p).isSome ∧ (vpeer = none ∨ vpeer = some p) ∧ k = kind then
        pr.queue p k ++ [⟨id, pr.produced k + 1⟩]
      else pr.queue p k := by
  cases hp : pr.peers p with
  | none => simp [queue, mark, hp]
  | some out =>
    by_cases hv : vpeer = none ∨ vpeer = some p
    · have hv' : ¬ (vpeer ≠ none ∧ vpeer ≠ some p) := by tauto
      by_cases hk : k = kind
      · subst hk
        simp [queue, mark, hp, hv', hv, Outbound.setQueue]
      · simp [queue, mark, hp, hv', hk, Outbound.setQueue]
    · have hv' : vpeer ≠ none ∧ vpeer ≠ some p := by tauto
      simp [queue, mark, hp, hv']

@[simp] theorem Producer.rebuildOf_mark (kind : Kind) (id : ι) (vpeer : Option P) (p : P) :
    (pr.mark kind id vpeer).rebuildOf p = pr.rebuildOf p := by
  cases hp : pr.peers p with
  | none => simp [rebuildOf, mark, hp]
  | some out =>
    simp only [rebuildOf, mark, hp, Option.map_some, Option.getD_some]
    split_ifs
    · rfl
    · rfl

theorem Producer.produced_mark (pr : Producer P ι) (kind : Kind) (id : ι) (vpeer : Option P) (k : Kind) :
    (pr.mark kind id vpeer).produced k = pr.produced k + if k = kind then 1 else 0 := by
  by_cases hk : k = kind
  · subst hk
    simp [mark]
  · simp [mark, hk]

theorem Producer.mem_queue_mark {kind : Kind} {id : ι} {vpeer : Option P} {p : P} {k : Kind} {c : Change ι}
    (hc : c ∈ (pr.mark kind id vpeer).queue p k) :
    c ∈ pr.queue p k ∨ k = kind ∧ c = ⟨id, pr.produced k + 1⟩ := by
  rw [queue_mark] at hc
  split_ifs at hc with h
  · rcases List.mem_append.mp hc with hc | hc
    · exact Or.inl hc
    · exact Or.inr ⟨h.2.2, List.mem_singleton.mp hc⟩
  · exact Or.inl hc

theorem Producer.extends_mark (h : pr.WF) (kind : Kind) (id : ι) (vpeer : Option P) :
    pr.Extends (pr.mark kind id vpeer) := by
  have hle : ∀ k, pr.produced k ≤ (pr.mark kind id vpeer).produced k := by
    intro k
    rw [produced_mark]
    split_ifs <;> omega
  refine ⟨⟨⟨fun k => (h.nonneg k).trans (hle k), fun p k => ?_, fun p k c hc => ?_⟩, rfl, hle,
    fun p k c hc => ?_⟩, fun p k c hc => ?_⟩
  · rw [queue_mark]
    split_ifs
    · rw [List.pairwise_append]
      refine ⟨h.sorted p k, List.pairwise_singleton _ _, fun c hc d hd => ?_⟩
      obtain rfl := List.mem_singleton.mp hd
      exact Int.lt_add_one_of_le (h.range p k c hc).2
    · exact h.sorted p k
  · rcases mem_queue_mark hc with hc | ⟨hk, rfl⟩
    · exact ⟨(h.range p k c hc).1, (h.range p k c hc).2.trans (hle k)⟩
    · rw [produced_mark, if_pos hk]
      exact ⟨Int.lt_add_one_of_le (h.nonneg k), le_rfl⟩
  · rcases mem_queue_mark hc with hc | ⟨-, rfl⟩
    · exact Or.inl hc
    · exact Or.inr (Int.lt_succ _)
  · rw [queue_mark]
    split_ifs
    · exact List.mem_append_left _ hc
    · exact hc

theorem Producer.extends_markCheckChanged (h : pr.WF) (check : MarkedCheck ι) (vpeer : Option P) :
    pr.Extends (pr.markCheckChanged check vpeer) := by
  unfold markCheckChanged
  split_ifs
  · exact .refl h
  · exact .refl h
  · exact extends_mark h _ _ _

theorem Producer.extends_buildFilterChangelog (h : pr.WF) (p : P) (set : MarkedFilter ι) :
    pr.Extends (pr.buildFilterChangelog p set) := by
  unfold buildFilterChangelog
  split_ifs
  · exact extends_mark h _ _ _
  · exact .refl h

theorem Producer.extends_buildCheckChangelog (h : pr.WF) (p : P) (check : MarkedCheck ι) :
    pr.Extends (pr.buildCheckChangelog p check) := by
  unfold buildCheckChangelog
  split_ifs
  · exact extends_markCheckChanged h _ _
  · exact .refl h

omit [DecidableEq P] in
theorem Producer.grows_of_sublist (h : pr.WF) (hboot : pr'.boot = pr.boot)
    (hproduced : pr'.produced = pr.produced)
    (hqueue : ∀ p k, (pr'.queue p k).Sublist (pr.queue p k)) : pr.Grows pr' where
  wf := ⟨fun k => hproduced ▸ h.nonneg k, fun p k => (h.sorted p k).sublist (hqueue p k),
    fun p k _ hc => hproduced ▸ h.range p k _ ((hqueue p k).subset hc)⟩
  boot := hboot
  produced k := (congrFun hproduced k).ge
  queue p k _ hc := Or.inl ((hqueue p k).subset hc)

theorem Producer.queue_setPeer_self (p : P) (out : Option (Outbound ι)) (k : Kind) :
    (pr.setPeer p out).queue p k = (out.map (·.queue k)).getD [] := by
  simp [queue, setPeer]

theorem Producer.queue_setPeer_of_ne {p q : P} (h : q ≠ p) (out : Option (Outbound ι)) (k : Kind) :
    (pr.setPeer p out).queue q k = pr.queue q k := by
  simp [queue, setPeer, h]

theorem Producer.queue_updatePeer (p q : P) (boot : Nat) (k : Kind) :
    (pr.updatePeer p boot).queue q k = pr.queue q k := by
  by_cases hq : q = p
  · subst hq
    rw [updatePeer, queue_setPeer_self]
    cases hp : pr.peers q with
    | none =>
      simp only [queue, hp, Option.getD_none, Option.map_some, Option.getD_some, Option.map_none]
      split_ifs <;> rfl
    | some out =>
      simp only [queue, hp, Option.getD_some, Option.map_some]
      split_ifs <;> rfl
  · exact queue_setPeer_of_ne hq _ k

theorem Producer.rebuildOf_updatePeer (p q : P) (boot : Nat) :
    (pr.updatePeer p boot).rebuildOf q =
      if q = p ∧ pr.bootOf p ≠ boot then .clearing .checks else pr.rebuildOf q := by
  by_cases hq : q = p
  · subst hq
    cases hp : pr.peers q with
    | none =>
      simp only [rebuildOf, bootOf, updatePeer, setPeer, hp, Function.update_self, true_and, Option.getD_none,
        Option.map_some, Option.getD_some, Option.map_none]
      split_ifs <;> rfl
    | some out =>
      simp only [rebuildOf, bootOf, updatePeer, setPeer, hp, Function.update_self, true_and, Option.map_some,
        Option.getD_some]
      split_ifs <;> rfl
  · simp [rebuildOf, updatePeer, setPeer, hq]

theorem Producer.extends_updatePeer (h : pr.WF) (p : P) (boot : Nat) : pr.Extends (pr.updatePeer p boot) := by
  refine ⟨grows_of_sublist h rfl rfl fun q k => ?_, fun q k c hc => ?_⟩
  · rw [queue_updatePeer]
  · rwa [queue_updatePeer]

theorem Outbound.queue_rebuildStep (out : Outbound ι) (k : Kind) :
    (out.rebuildStep.queue k).Sublist (out.queue k) ∧
      (out.rebuild.clears = false → out.rebuildStep.queue k = out.queue k) ∧
      (out.rebuildStep.rebuild.clears = true → out.rebuild.clears = true) := by
  unfold rebuildStep
  split
  · next hr => simp [hr, Rebuild.clears]
  · next kind hr =>
    refine ⟨?_, fun hc => absurd hc (by simp [hr, Rebuild.clears]), fun _ => by rw [hr]; rfl⟩
    split
    · next c rest hq =>
      by_cases hk : k = kind
      · subst hk
        simp [setQueue, hq]
      · simp [setQueue, hk]
    · exact List.Sublist.refl _
  · next hr => simp [hr, Rebuild.clears]
  · next kind hr =>
    refine ⟨List.Sublist.refl _, fun _ => rfl, fun hc => absurd hc ?_⟩
    cases kind with
    | checks => exact Bool.false_ne_true
    | filters => exact Bool.false_ne_true

theorem Producer.queue_rebuildChangelog (p q : P) (k : Kind) :
    ((pr.rebuildChangelog p).queue q k).Sublist (pr.queue q k) ∧
      ((pr.rebuildOf p).clears = false → (pr.rebuildChangelog p).queue q k = pr.queue q k) := by
  by_cases hq : q = p
  · subst hq
    rw [rebuildChangelog, queue_setPeer_self]
    cases hp : pr.peers q with
    | none => simp [queue, hp]
    | some out =>
      obtain ⟨hsub, hsame, -⟩ := out.queue_rebuildStep k
      simpa [queue, hp, rebuildOf] using ⟨hsub, hsame⟩
  · rw [rebuildChangelog, queue_setPeer_of_ne hq]
    exact ⟨List.Sublist.refl _, fun _ => rfl⟩

theorem Producer.clears_of_rebuildChangelog {p q : P}
    (h : ((pr.rebuildChangelog p).rebuildOf q).clears = true) :
    (pr.rebuildOf q).clears = true := by
  by_cases hq : q = p
  · subst hq
    cases hp : pr.peers q with
    | none => simp [rebuildOf, rebuildChangelog, setPeer, hp, Rebuild.clears] at h
    | some out =>
      simp only [rebuildOf, rebuildChangelog, setPeer, hp, Function.update_self, Option.map_some,
        Option.getD_some] at h ⊢
      exact (out.queue_rebuildStep .checks).2.2 h
  · simpa [rebuildOf, rebuildChangelog, setPeer, hq] using h

theorem Producer.grows_rebuildChangelog (h : pr.WF) (p : P) : pr.Grows (pr.rebuildChangelog p) :=
  grows_of_sublist h rfl rfl fun q k => (queue_rebuildChangelog p q k).1

theorem Producer.queue_xmlChanges [DecidableEq ι] (cnOk : P → Bool) (p : P)
    (req : Request) (present : ι → Bool) (q : P) (k : Kind) :
    (pr.xmlChanges cnOk p req present).1.queue q k =
      if q = p ∧ cnOk p = true ∧ k = req.kind then eatSeen req.prev (pr.queue q k) else pr.queue q k := by
  unfold xmlChanges
  cases hp : pr.peers p with
  | none =>
    by_cases hq : q = p
    · subst hq
      simp [queue, hp, eatSeen]
    · simp [hq]
  | some out =>
    by_cases hcn : cnOk p = true
    · simp only [hcn, if_true, true_and]
      by_cases hq : q = p
      · subst hq
        rw [queue_setPeer_self]
        by_cases hk : k = req.kind
        · subst hk
          simp [queue, hp, Outbound.setQueue]
        · simp [queue, hp, hk, Outbound.setQueue]
      · rw [queue_setPeer_of_ne hq, if_neg fun h => hq h.1]
    · simp [hcn]

theorem Producer.rebuildOf_xmlChanges [DecidableEq ι] (cnOk : P → Bool) (p : P) (req : Request)
    (present : ι → Bool) (q : P) :
    (pr.xmlChanges cnOk p req present).1.rebuildOf q = pr.rebuildOf q := by
  unfold xmlChanges
  cases hp : pr.peers p with
  | none => rfl
  | some out =>
    simp only
    split_ifs
    · by_cases hq : q = p
      · subst hq
        simp [rebuildOf, setPeer, hp, Outbound.setQueue]
      · simp [rebuildOf, setPeer, hq]
    · rfl

end

section

variable {P ι : Type}

def Link.Processed (l : Link ι) (boot : Nat) (kind : Kind) (change : Change ι) : Prop :=
  ∃ resp ∈ l.processed, resp.boot = boot ∧ resp.request.kind = kind ∧ change ∈ resp.covers

def Link.Safe (pr : Producer P ι) (p : P) (l : Link ι) (kind : Kind) (x : Int) : Prop :=
  x ≤ pr.produced kind ∧ ∀ c ∈ pr.queue p kind, c.seq ≤ x → l.Processed pr.boot kind c

def Response.Full (pr : Producer P ι) (p : P) (resp : Response ι) : Prop :=
  resp.request.limit ≤ pr.produced resp.request.kind ∧
    ∀ c ∈ pr.queue p resp.request.kind, c.seq ≤ resp.request.limit → c ∈ resp.covers

structure Link.JobInv (pr : Producer P ι) (p : P) (l : Link ι) (job : Job) : Prop where
  number : job.number = l.consumer.jobs
  boot_le : job.boot ≤ pr.boot
  requests : ∀ req ∈ l.requests, req.number = job.number →
    req.boot = job.boot ∧ req.limit = (job.spans req.kind).limit
  spans : job.boot = pr.boot → ∀ k, Safe pr p l k (job.spans k).prev ∧
    (job.spans k).limit ≤ pr.produced k ∧ ((job.spans k).success → Safe pr p l k (job.spans k).limit)

structure Link.Inv (pr : Producer P ι) (p : P) (l : Link ι) : Prop where
  boot_le : l.consumer.boot ≤ pr.boot
  inbound : l.consumer.boot = pr.boot → ∀ k, Safe pr p l k (l.consumer.inbound k).fetched ∧
    (l.consumer.inbound k).available ≤ pr.produced k
  job : ∀ job, l.consumer.job = some job → JobInv pr p l job
  request : ∀ req ∈ l.requests, req.number ≤ l.consumer.jobs ∧ req.boot ≤ pr.boot ∧
    (req.boot = pr.boot → Safe pr p l req.kind req.prev ∧ req.limit ≤ pr.produced req.kind)
  response : ∀ resp ∈ l.responses, resp.request ∈ l.requests ∧ resp.boot = resp.request.boot ∧
    (resp.boot = pr.boot → resp.Full pr p)

variable {pr pr' : Producer P ι} {p : P} {l l' : Link ι} {kind : Kind} {x : Int}

theorem Link.Processed.mono {boot : Nat} {c : Change ι} (h : l.Processed boot kind c)
    (hl : l.processed ⊆ l'.processed) : l'.Processed boot kind c := by
  obtain ⟨resp, hr, hrest⟩ := h
  exact ⟨resp, hl hr, hrest⟩

theorem Link.Safe.mono (h : Safe pr p l kind x) (hl : l.processed ⊆ l'.processed) :
    Safe pr p l' kind x :=
  ⟨h.1, fun c hc hx => (h.2 c hc hx).mono hl⟩

theorem Link.Safe.grows (h : Safe pr p l kind x) (hg : pr.Grows pr') : Safe pr' p l kind x := by
  refine ⟨h.1.trans (hg.produced kind), fun c hc hx => ?_⟩
  rw [hg.boot]
  rcases hg.queue p kind c hc with hc | hc
  · exact h.2 c hc hx
  · exact absurd (hx.trans h.1) (not_le.mpr hc)

theorem Link.safe_zero (h : pr.WF) : Safe pr p l kind 0 :=
  ⟨h.nonneg kind, fun c hc hx => absurd (h.range p kind c hc).1 (not_lt.mpr hx)⟩

theorem Response.Full.grows {resp : Response ι} (h : resp.Full pr p) (hg : pr.Grows pr') :
    resp.Full pr' p := by
  refine ⟨h.1.trans (hg.produced _), fun c hc hx => ?_⟩
  rcases hg.queue p _ c hc with hc | hc
  · exact h.2 c hc hx
  · exact absurd (hx.trans h.1) (not_le.mpr hc)

theorem Link.Inv.grows (h : l.Inv pr p) (hg : pr.Grows pr') : l.Inv pr' p where
  boot_le := hg.boot ▸ h.boot_le
  inbound hb k := by
    obtain ⟨hs, ha⟩ := h.inbound (hb.trans hg.boot) k
    exact ⟨hs.grows hg, ha.trans (hg.produced k)⟩
  job job hj := by
    obtain ⟨hn, hle, hr, hs⟩ := h.job job hj
    refine ⟨hn, hg.boot ▸ hle, hr, fun hb k => ?_⟩
    obtain ⟨hprev, hlim, hsucc⟩ := hs (hb.trans hg.boot) k
    exact ⟨hprev.grows hg, hlim.trans (hg.produced k), fun ho => (hsucc ho).grows hg⟩
  request req hr := by
    obtain ⟨hn, hle, hs⟩ := h.request req hr
    refine ⟨hn, hg.boot ▸ hle, fun hb => ?_⟩
    obtain ⟨hprev, hlim⟩ := hs (hb.trans hg.boot)
    exact ⟨hprev.grows hg, hlim.trans (hg.produced _)⟩
  response resp hr := by
    obtain ⟨hm, hb, hf⟩ := h.response resp hr
    exact ⟨hm, hb, fun he => (hf (he.trans hg.boot)).grows hg⟩

theorem Link.Inv.restart (h : l.Inv pr p) (hb : pr'.boot = pr.boot + 1) : l.Inv pr' p where
  boot_le := by have := h.boot_le; omega
  inbound he := by have := h.boot_le; omega
  job job hj := by
    obtain ⟨hn, hle, hr, _⟩ := h.job job hj
    exact ⟨hn, by omega, hr, fun he => by omega⟩
  request req hr := by
    obtain ⟨hn, hle, _⟩ := h.request req hr
    exact ⟨hn, by omega, fun he => by omega⟩
  response resp hr := by
    obtain ⟨hm, hbr, _⟩ := h.response resp hr
    have := (h.request _ hm).2.1
    exact ⟨hm, hbr, fun he => by omega⟩

end

theorem Consumer.spanFor_bounds (batchSize : Nat) (inb : Inbound) :
    (spanFor batchSize inb).success = false ∧
      ((spanFor batchSize inb).prev = 0 ∧ (spanFor batchSize inb).limit = 0 ∨
        (spanFor batchSize inb).prev = inb.fetched ∧ (spanFor batchSize inb).limit ≤ inb.available) := by
  unfold spanFor
  simp only
  split_ifs with hb hz hz
  · exact ⟨rfl, Or.inl ⟨rfl, rfl⟩⟩
  · exact ⟨rfl, Or.inr ⟨rfl, by simp only; omega⟩⟩
  · exact ⟨rfl, Or.inl ⟨rfl, rfl⟩⟩
  · exact ⟨rfl, Or.inr ⟨rfl, le_rfl⟩⟩

section

variable {P ι : Type} {pr : Producer P ι} {p : P} {l l' : Link ι}

theorem inv_possiblyStartJob (hwf : pr.WF) (h : l.Inv pr p) (batchSize : Nat) (inCluster : Bool) :
    (l.setConsumer (l.consumer.possiblyStartJob batchSize inCluster)).Inv pr p := by
  rcases l.consumer.possiblyStartJob_cases batchSize inCluster with heq | ⟨-, todo, heq⟩
  · rw [heq]
    exact h
  rw [heq]
  refine ⟨h.boot_le, h.inbound, fun job he => ?_, fun req hr => ?_, h.response⟩
  · obtain rfl := Option.some.inj he
    refine ⟨rfl, h.boot_le, fun req hr hn => ?_, fun hb k => ?_⟩
    · have hle := (h.request req hr).1
      simp only at hn
      omega
    · obtain ⟨hfetched, havail⟩ := h.inbound hb k
      obtain ⟨hs, hspan | hspan⟩ := Consumer.spanFor_bounds batchSize (l.consumer.inbound k)
      · simp only [hspan.1, hspan.2, hs]
        exact ⟨Link.safe_zero hwf, hwf.nonneg k, fun ho => absurd ho (by simp)⟩
      · simp only [hspan.1, hs]
        exact ⟨hfetched, hspan.2.trans havail, fun ho => absurd ho (by simp)⟩
  · obtain ⟨hn, hrest⟩ := h.request req hr
    exact ⟨Nat.le_succ_of_le hn, hrest⟩

theorem inv_hear (hwf : pr.WF) (h : l.Inv pr p) {hb : Heartbeat} (hle : hb.boot ≤ pr.boot)
    (hseq : hb.boot = pr.boot → ∀ k n, hb.seq k = some n → n ≤ pr.produced k)
    (hok : l.consumer.boot ≠ hb.boot → ∀ k, hb.seq k = none → (l.consumer.inbound k).available = 0)
    (batchSize : Nat) (inCluster : Bool) :
    (l.setConsumer (l.consumer.updatePeer batchSize inCluster hb)).Inv pr p := by
  have hrecord : ∀ c : Consumer, c.job = l.consumer.job → c.jobs = l.consumer.jobs →
      c.boot = hb.boot →
      (hb.boot = pr.boot → ∀ k, Link.Safe pr p l k (c.inbound k).fetched ∧
        (c.inbound k).available ≤ pr.produced k) → (l.setConsumer c).Inv pr p := by
    intro c hjob hjobs hboot hin
    refine ⟨hboot ▸ hle, fun he => hin (hboot ▸ he), fun job hj => ?_, fun req hr => ?_, h.response⟩
    · obtain ⟨hn, hjb, hr, hs⟩ := h.job job (hjob ▸ hj)
      exact ⟨hn.trans hjobs.symm, hjb, hr, hs⟩
    · have hr' := h.request req hr
      rw [← hjobs] at hr'
      exact hr'
  unfold Consumer.updatePeer
  simp only
  apply inv_possiblyStartJob hwf (l := l.setConsumer _)
  split_ifs with hboot
  · refine hrecord _ ?_ ?_ ?_ fun he k => ?_
    · rfl
    · rfl
    · rfl
    refine ⟨Link.safe_zero hwf, ?_⟩
    cases hs : hb.seq k with
    | some n => simpa [hs] using hseq he k n hs
    | none => simpa [hs, hok hboot k hs] using hwf.nonneg k
  · refine hrecord _ ?_ ?_ ?_ fun he k => ?_
    · rfl
    · rfl
    · exact not_not.mp hboot
    obtain ⟨hfetched, havail⟩ := h.inbound ((not_not.mp hboot).trans he) k
    refine ⟨hfetched, ?_⟩
    cases hs : hb.seq k with
    | some n => simpa [hs] using hseq he k n hs
    | none => simpa [hs] using havail

theorem inv_finish (hwf : pr.WF) (h : l.Inv pr p) {job : Job} (hj : l.consumer.job = some job)
    (hok : ∀ k, (job.spans k).success → job.boot = l.consumer.boot) (batchSize : Nat)
    (inCluster : Bool) : (l.setConsumer (l.consumer.finish batchSize inCluster job)).Inv pr p := by
  unfold Consumer.finish
  apply inv_possiblyStartJob hwf (l := l.setConsumer _)
  refine ⟨h.boot_le, fun hb k => ?_, fun job he => absurd he (by simp [Link.setConsumer]), h.request,
    h.response⟩
  obtain ⟨hfetched, havail⟩ := h.inbound hb k
  refine ⟨?_, havail⟩
  simp only [Link.setConsumer, Consumer.finishSpan]
  split_ifs with hs
  · have hspan := ((h.job job hj).spans ((hok k hs.1).trans hb) k).2.2
    exact hspan hs.1
  · exact hfetched

theorem inv_request (h : l.Inv pr p) (hl : l.request = some l') : l'.Inv pr p := by
  obtain ⟨number, boot, spans, kind, todo, hj, rfl⟩ := Link.request_eq hl
  obtain ⟨hn, hle, hr, hs⟩ := h.job _ hj
  refine ⟨h.boot_le, h.inbound, fun job he => ?_, fun req hreq => ?_, fun resp hresp => ?_⟩
  · obtain rfl := Option.some.inj (hj.symm.trans he)
    refine ⟨hn, hle, fun req hreq hnum => ?_, hs⟩
    rcases List.mem_cons.mp hreq with rfl | hreq
    · exact ⟨rfl, rfl⟩
    · exact hr req hreq hnum
  · rcases List.mem_cons.mp hreq with rfl | hreq
    · exact ⟨hn.le, hle, fun hb => ⟨(hs hb kind).1, (hs hb kind).2.1⟩⟩
    · exact h.request req hreq
  · obtain ⟨hm, hrest⟩ := h.response resp hresp
    exact ⟨List.mem_cons_of_mem _ hm, hrest⟩

theorem Link.Inv.setJob (h : l.Inv pr p) {number boot : Nat} {spans spans' : Kind → Span}
    {todo todo' : List Kind} {processed : List (Response ι)}
    (hj : l.consumer.job = some ⟨number, boot, spans, todo⟩) (hproc : l.processed ⊆ processed)
    (hspans : ∀ k, (spans' k).prev = (spans k).prev ∧ (spans' k).limit = (spans k).limit)
    (hsucc : boot = pr.boot → ∀ k, (spans' k).success → (spans k).success ∨
      Link.Safe pr p { l with processed := processed } k (spans k).limit) :
    ({ l with
      consumer := { l.consumer with job := some ⟨number, boot, spans', todo'⟩ }
      processed := processed } : Link ι).Inv pr p := by
  obtain ⟨hn, hle, hr, hs⟩ := h.job _ hj
  refine ⟨h.boot_le, fun hb k => ?_, fun job he => ?_, fun req hreq => ?_, h.response⟩
  · obtain ⟨hf, ha⟩ := h.inbound hb k
    exact ⟨hf.mono hproc, ha⟩
  · obtain rfl := Option.some.inj he
    refine ⟨hn, hle, fun req hreq hnum => ?_, fun hb k => ?_⟩
    · rw [(hspans req.kind).2]
      exact hr req hreq hnum
    · obtain ⟨hprev, hlim, hold⟩ := hs hb k
      simp only [(hspans k).1, (hspans k).2]
      refine ⟨hprev.mono hproc, hlim, fun ho => ?_⟩
      rcases hsucc hb k ho with ho | hsafe
      · exact (hold ho).mono hproc
      · exact hsafe
  · obtain ⟨h1, h2, h3⟩ := h.request req hreq
    exact ⟨h1, h2, fun hb => ⟨(h3 hb).1.mono hproc, (h3 hb).2⟩⟩

theorem inv_giveUp (h : l.Inv pr p) (hl : l.giveUp = some l') : l'.Inv pr p := by
  obtain ⟨number, boot, spans, kind, todo, hj, rfl⟩ := Link.giveUp_eq hl
  exact h.setJob hj (List.Subset.refl _) (fun _ => ⟨rfl, rfl⟩) fun _ _ ho => Or.inl ho

theorem inv_process [DecidableEq ι] {resp : Response ι} {result : Int} (h : l.Inv pr p)
    (hl : l.process resp result = some l') : l'.Inv pr p := by
  obtain ⟨number, boot, spans, todo, hj, hmem, hnum, rfl⟩ := Link.process_eq hl
  obtain ⟨hreq, hboot, hfull⟩ := h.response resp hmem
  obtain ⟨hjb, hlim⟩ := (h.job _ hj).requests _ hreq hnum
  have hproc : l.processed ⊆ if 0 ≤ result then resp :: l.processed else l.processed := by
    split_ifs
    · exact List.subset_cons_self _ _
    · exact List.Subset.refl _
  refine h.setJob hj hproc (fun k => ?_) (fun hb k ho => ?_)
  · by_cases hk : k = resp.request.kind
    · subst hk
      simp
    · simp [hk]
  by_cases hk : k = resp.request.kind
  · subst hk
    have hres : 0 ≤ result := by simpa using ho
    obtain ⟨hle, hcov⟩ := hfull ((hboot.trans hjb).trans hb)
    simp only at hlim
    rw [← hlim]
    refine Or.inr ⟨hle, fun c hc hx => ⟨resp, ?_, (hboot.trans hjb).trans hb, rfl, hcov c hc hx⟩⟩
    simp only [if_pos hres]
    exact List.mem_cons_self
  · rw [Function.update_of_ne hk] at ho
    exact Or.inl ho

end

theorem mem_takeWhile_of_sorted {ι : Type} {queue : List (Change ι)} {limit : Int} {c : Change ι}
    (hs : queue.Pairwise fun c d => c.seq < d.seq) (hc : c ∈ queue) (hle : c.seq ≤ limit) :
    c ∈ queue.takeWhile fun change => change.seq ≤ limit := by
  induction queue with
  | nil => exact hc
  | cons d queue ih =>
    obtain ⟨hd, hs⟩ := List.pairwise_cons.mp hs
    rcases List.mem_cons.mp hc with rfl | hc
    · simp [hle]
    · have hdle : d.seq ≤ limit := (hd c hc).le.trans hle
      rw [List.takeWhile_cons_of_pos (by simpa using hdle)]
      exact List.mem_cons_of_mem _ (ih hs hc)

theorem le_of_not_mem_eatSeen {ι : Type} {queue : List (Change ι)} {prevEnd : Int} {c : Change ι}
    (hc : c ∈ queue) (hn : c ∉ Producer.eatSeen prevEnd queue) : c.seq ≤ prevEnd := by
  have hsplit := @List.takeWhile_append_dropWhile _ (fun c : Change ι => decide (c.seq ≤ prevEnd)) queue
  rw [← hsplit] at hc
  rcases List.mem_append.mp hc with hc | hc
  · simpa using List.mem_takeWhile_imp hc
  · exact absurd hc hn

structure Cluster.Inv {P ι : Type} (cnOk : P → Bool) (s : Cluster P ι) : Prop where
  wf : s.producer.WF
  beats : ∀ hb ∈ s.beats, hb.boot ≤ s.producer.boot ∧
    (hb.boot = s.producer.boot → ∀ k n, hb.seq k = some n → n ≤ s.producer.produced k)
  links : ∀ p, cnOk p = true → (s.links p).Inv s.producer p

section

variable {P ι : Type} {cnOk : P → Bool} {s : Cluster P ι}

theorem Cluster.inv_start : (Cluster.start P ι).Inv cnOk where
  wf := Producer.wf_empty 1
  beats := by simp [Cluster.start]
  links p _ := by
    refine ⟨Nat.zero_le _, fun hb => ?_, fun job hj => ?_, fun req hr => ?_, fun resp hr => ?_⟩
    · simp [Cluster.start, Link.start] at hb
    · simp [Cluster.start, Link.start] at hj
    · simp [Cluster.start, Link.start] at hr
    · simp [Cluster.start, Link.start] at hr

theorem Cluster.Inv.grows (h : s.Inv cnOk) {producer : Producer P ι} (hg : s.producer.Grows producer) :
    ({ s with producer := producer } : Cluster P ι).Inv cnOk where
  wf := hg.wf
  beats hb hm := by
    obtain ⟨hle, hseq⟩ := h.beats hb hm
    exact ⟨hg.boot ▸ hle, fun he k n hn => (hseq (he.trans hg.boot) k n hn).trans (hg.produced k)⟩
  links p hp := (h.links p hp).grows hg

end

section

variable {P ι : Type} [DecidableEq P] [DecidableEq ι] {pr : Producer P ι}

theorem Producer.grows_xmlChanges (h : pr.WF) (cnOk : P → Bool) (p : P) (req : Request) (present : ι → Bool) :
    pr.Grows (pr.xmlChanges cnOk p req present).1 := by
  refine grows_of_sublist h ?_ ?_ fun q k => ?_
  · unfold xmlChanges
    cases pr.peers p with
    | none => rfl
    | some out =>
      simp only
      split_ifs <;> rfl
  · unfold xmlChanges
    cases pr.peers p with
    | none => rfl
    | some out =>
      simp only
      split_ifs <;> rfl
  · rw [queue_xmlChanges]
    split_ifs
    · exact List.dropWhile_sublist _
    · exact List.Sublist.refl _

theorem Producer.xmlChanges_spec (h : pr.WF) (cnOk : P → Bool) (p : P) (req : Request)
    (present : ι → Bool) :
    (pr.xmlChanges cnOk p req present).2.request = req ∧
      (pr.xmlChanges cnOk p req present).2.boot = pr.boot ∧
      (cnOk p = true → req.limit ≤ pr.produced req.kind →
        (pr.xmlChanges cnOk p req present).2.Full (pr.xmlChanges cnOk p req present).1 p) ∧
      ∀ q k, ∀ c ∈ pr.queue q k, c ∉ (pr.xmlChanges cnOk p req present).1.queue q k →
        q = p ∧ cnOk p = true ∧ k = req.kind ∧ c.seq ≤ req.prev := by
  have hg := grows_xmlChanges h cnOk p req present
  have hgone : ∀ q k, ∀ c ∈ pr.queue q k, c ∉ (pr.xmlChanges cnOk p req present).1.queue q k →
      q = p ∧ cnOk p = true ∧ k = req.kind ∧ c.seq ≤ req.prev := by
    intro q k c hc hn
    rw [queue_xmlChanges] at hn
    split_ifs at hn with hqk
    · exact ⟨hqk.1, hqk.2.1, hqk.2.2, le_of_not_mem_eatSeen hc hn⟩
    · exact absurd hc hn
  have hcovers : cnOk p = true → (pr.xmlChanges cnOk p req present).2.covers =
      ((pr.xmlChanges cnOk p req present).1.queue p req.kind).takeWhile fun change =>
        change.seq ≤ req.limit := by
    intro hcn
    rw [queue_xmlChanges, if_pos ⟨rfl, hcn, rfl⟩]
    cases hp : pr.peers p with
    | none => simp [xmlChanges, queue, hp, eatSeen]
    | some out => simp [xmlChanges, queue, hp, hcn]
  have hreq : (pr.xmlChanges cnOk p req present).2.request = req ∧
      (pr.xmlChanges cnOk p req present).2.boot = pr.boot := by
    unfold xmlChanges
    cases pr.peers p with
    | none => exact ⟨rfl, rfl⟩
    | some out =>
      simp only
      split_ifs <;> exact ⟨rfl, rfl⟩
  refine ⟨hreq.1, hreq.2, fun hcn hle => ⟨?_, fun c hc hx => ?_⟩, hgone⟩
  · rw [hreq.1]
    exact hle.trans (hg.produced _)
  · rw [hreq.1] at hc hx
    rw [hcovers hcn]
    exact mem_takeWhile_of_sorted (hg.wf.sorted p req.kind) hc hx

/-- The conditions on the numbers of a step. A heartbeat of the producer that
changes the boot time on record carries the sequence numbers; a request is
answered by the incarnation the job was started for; and no job with a success
ends after a change of the boot time. -/
def SameIncarnation (s : Cluster P ι) : ClusterAct P ι → Prop
  | .hear p i _ => ∀ hb ∈ s.beats[i]?, (s.links p).consumer.boot ≠ hb.boot →
      ∀ k, hb.seq k = none → ((s.links p).consumer.inbound k).available = 0
  | .serve _ req _ => req.boot = s.producer.boot
  | .finish p _ => ∀ job ∈ (s.links p).consumer.job,
      ∀ k, (job.spans k).success → job.boot = (s.links p).consumer.boot
  | _ => True

/-- The conditions on the queues of a step. A heartbeat of a peer rebuilds its
queue only while the queue is empty, and nothing is marked for all peers while
a queue is being emptied. -/
def QueueKept (s : Cluster P ι) : ClusterAct P ι → Prop
  | .meet p boot => s.producer.bootOf p ≠ boot → ∀ k, s.producer.queue p k = []
  | .markCheck _ => ∀ p, (s.producer.rebuildOf p).clears = false
  | .markFilter _ => ∀ p, (s.producer.rebuildOf p).clears = false
  | _ => True

def ClusterStepOk (s : Cluster P ι) (act : ClusterAct P ι) : Prop :=
  SameIncarnation s act ∧ QueueKept s act

omit [DecidableEq P] [DecidableEq ι] in
instance SameIncarnation.decidable (s : Cluster P ι) (act : ClusterAct P ι) :
    Decidable (SameIncarnation s act) := by
  cases act <;> dsimp only [SameIncarnation] <;> infer_instance

omit [DecidableEq P] in
instance QueueKept.decidable [Fintype P] (s : Cluster P ι) (act : ClusterAct P ι) :
    Decidable (QueueKept s act) := by
  cases act <;> dsimp only [QueueKept] <;> infer_instance

instance ClusterStepOk.decidable [Fintype P] (s : Cluster P ι) (act : ClusterAct P ι) :
    Decidable (ClusterStepOk s act) :=
  inferInstanceAs (Decidable (SameIncarnation s act ∧ QueueKept s act))

variable {batchSize : Nat} {cnOk : P → Bool} {s t : Cluster P ι}

omit [DecidableEq ι] in
theorem Cluster.Inv.setLink (h : s.Inv cnOk) {p : P} {link : Link ι}
    (hl : cnOk p = true → link.Inv s.producer p) : (s.setLink p link).Inv cnOk where
  wf := h.wf
  beats := h.beats
  links q hq := by
    by_cases hqp : q = p
    · subst hqp
      simp only [Cluster.setLink, Function.update_self]
      exact hl hq
    · simp only [Cluster.setLink, Function.update_of_ne hqp]
      exact h.links q hq

theorem inv_serve (h : s.Inv cnOk) {p : P} {req : Request} {present : ι → Bool}
    (hok : req.boot = s.producer.boot)
    (hs : clusterStep batchSize cnOk s (.serve p req present) = some t) : t.Inv cnOk := by
  simp only [clusterStep] at hs
  split_ifs at hs with hmem
  obtain rfl := Option.some.inj hs
  have hg := Producer.grows_xmlChanges h.wf cnOk p req present
  obtain ⟨hreq, hboot, hfull, _⟩ := Producer.xmlChanges_spec h.wf cnOk p req present
  refine (h.grows hg).setLink fun hp => ?_
  have hl := (h.grows hg).links p hp
  refine ⟨hl.boot_le, hl.inbound, fun job hj => ?_, hl.request, fun resp hr => ?_⟩
  · obtain ⟨h1, h2, h3, h4⟩ := hl.job job hj
    exact ⟨h1, h2, h3, h4⟩
  · rcases List.mem_cons.mp hr with rfl | hr
    · refine ⟨hreq.symm ▸ hmem, ?_, fun _ => hfull hp ?_⟩
      · rw [hboot, hreq, hok]
      · exact (((h.links p hp).request req hmem).2.2 hok).2
    · exact hl.response resp hr

theorem inv_clusterStep {act : ClusterAct P ι} (h : s.Inv cnOk) (hok : SameIncarnation s act)
    (hs : clusterStep batchSize cnOk s act = some t) : t.Inv cnOk := by
  cases act with
  | markCheck check =>
    obtain rfl := Option.some.inj hs
    exact h.grows (Producer.extends_markCheckChanged h.wf check none).toGrows
  | markFilter name =>
    obtain rfl := Option.some.inj hs
    exact h.grows (Producer.extends_mark h.wf _ name none).toGrows
  | restart =>
    obtain rfl := Option.some.inj hs
    refine ⟨Producer.wf_empty _, fun hb hm => ?_, fun p hp => (h.links p hp).restart rfl⟩
    have hle := (h.beats hb hm).1
    exact ⟨Nat.le_succ_of_le hle, fun he => by simp only at he; omega⟩
  | meet p boot =>
    simp only [clusterStep] at hs
    split_ifs at hs
    obtain rfl := Option.some.inj hs
    exact h.grows (Producer.extends_updatePeer h.wf p boot).toGrows
  | rebuild p =>
    obtain rfl := Option.some.inj hs
    exact h.grows (Producer.grows_rebuildChangelog h.wf p)
  | relistFilter p set =>
    simp only [clusterStep] at hs
    split_ifs at hs
    obtain rfl := Option.some.inj hs
    exact h.grows (Producer.extends_buildFilterChangelog h.wf p set).toGrows
  | relistCheck p check =>
    simp only [clusterStep] at hs
    split_ifs at hs
    obtain rfl := Option.some.inj hs
    exact h.grows (Producer.extends_buildCheckChangelog h.wf p check).toGrows
  | beat carries =>
    obtain rfl := Option.some.inj hs
    refine ⟨h.wf, fun hb hm => ?_, h.links⟩
    rcases List.mem_cons.mp hm with rfl | hm
    · refine ⟨le_rfl, fun _ k n hn => ?_⟩
      simp only at hn
      split_ifs at hn
      exact (Option.some.inj hn).ge
    · exact h.beats hb hm
  | hear p i inCluster =>
    obtain ⟨hb, hi, rfl⟩ := Option.map_eq_some_iff.mp hs
    obtain ⟨hle, hseq⟩ := h.beats hb (List.mem_of_getElem? hi)
    exact h.setLink fun hp => inv_hear h.wf (h.links p hp) hle hseq (hok hb hi) batchSize inCluster
  | request p =>
    obtain ⟨l, hl, rfl⟩ := Option.map_eq_some_iff.mp hs
    exact h.setLink fun hp => inv_request (h.links p hp) hl
  | serve p req present => exact inv_serve h hok hs
  | process p resp result =>
    obtain ⟨l, hl, rfl⟩ := Option.map_eq_some_iff.mp hs
    exact h.setLink fun hp => inv_process (h.links p hp) hl
  | giveUp p =>
    obtain ⟨l, hl, rfl⟩ := Option.map_eq_some_iff.mp hs
    exact h.setLink fun hp => inv_giveUp (h.links p hp) hl
  | finish p inCluster =>
    obtain ⟨l, hl, rfl⟩ := Option.map_eq_some_iff.mp hs
    obtain ⟨job, hj, rfl⟩ := Link.finish_eq hl
    exact h.setLink fun hp => inv_finish h.wf (h.links p hp) hj (hok _ hj) batchSize inCluster

/-- While the queue for a peer is being emptied there is nothing in it. -/
def Producer.Cleared (pr : Producer P ι) : Prop :=
  ∀ p, (pr.rebuildOf p).clears = true → ∀ k, pr.queue p k = []

omit [DecidableEq ι] in
theorem Producer.Cleared.updatePeer (h : pr.Cleared) {p : P} {boot : Nat}
    (hok : pr.bootOf p ≠ boot → ∀ k, pr.queue p k = []) : (pr.updatePeer p boot).Cleared := by
  intro q hq k
  rw [rebuildOf_updatePeer] at hq
  rw [queue_updatePeer]
  split_ifs at hq with hreset
  · rw [hreset.1]
    exact hok hreset.2 k
  · exact h q hq k

omit [DecidableEq ι] in
theorem Producer.Cleared.rebuildChangelog (h : pr.Cleared) (p : P) : (pr.rebuildChangelog p).Cleared := by
  intro q hq k
  have hsub := (pr.queue_rebuildChangelog p q k).1
  rw [h q (clears_of_rebuildChangelog hq) k] at hsub
  exact List.sublist_nil.mp hsub

end

/-- The producer takes up a peer with these checks, undisturbed. -/
def meetActs (checks : List (MarkedCheck Nat)) : List (ClusterAct Unit Nat) :=
  .meet () 1 :: List.replicate 4 (.rebuild ()) ++ checks.map (.relistCheck ()) ++ [.rebuild ()]

end Reconnoiter
