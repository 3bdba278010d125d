import Reconnoiter.Machine

/-! Replication of checks and filters between the nodes of a cluster
(`noit_clustering.c`): one producer, with a queue of changes for each of its
peers, and the peers that fetch from it. What is on its way between the nodes
(heartbeats, requests, responses) may be late or come twice. The marks and the
answers take `noit_peer_lock` and are one step each; `update_peer` runs without
it, so that any of them may come between two steps of its rebuild. -/

namespace Reconnoiter

inductive Kind where
  | checks
  | filters
  deriving DecidableEq

instance Kind.fintype : Fintype Kind := ⟨{.checks, .filters}, fun k => by cases k <;> decide⟩

structure Change (ι : Type) where
  id : ι
  seq : Int
  deriving DecidableEq

/-- How far `noit_peer_rebuild_changelog` has got with a peer: the two loops of
`noit_peer_clear_changelog`, its last two lines, and the marks for the filters
and the checks there are. -/
inductive Rebuild where
  | done
  | clearing (kind : Kind)
  | resetting
  | marking (kind : Kind)
  deriving DecidableEq

structure Outbound (ι : Type) where
  boot : Nat
  rebuild : Rebuild
  queue : Kind → List (Change ι)

def Outbound.setQueue {ι : Type} (out : Outbound ι) (kind : Kind) (queue : List (Change ι)) :
    Outbound ι :=
  { out with queue := Function.update out.queue kind queue }

/-- The queue is being emptied: what is marked now does not stay in it. -/
def Rebuild.clears : Rebuild → Bool
  | .clearing _ => true
  | .resetting => true
  | _ => false

def Outbound.rebuildStep {ι : Type} (out : Outbound ι) : Outbound ι :=
  match out.rebuild with
  | .done => out
  | .clearing kind =>
    match out.queue kind with
    | _ :: rest => out.setQueue kind rest
    | [] => { out with rebuild := if kind = .checks then .clearing .filters else .resetting }
  | .resetting => { out with rebuild := .marking .filters, queue := fun _ => [] }
  | .marking kind => { out with rebuild := if kind = .filters then .marking .checks else .done }

structure Producer (P ι : Type) where
  boot : Nat
  produced : Kind → Int
  peers : P → Option (Outbound ι)

structure MarkedCheck (ι : Type) where
  checkid : ι
  selfcheck : Bool
  configSeq : Int

structure MarkedFilter (ι : Type) where
  name : ι
  seq : Int

namespace Producer

variable {P ι : Type} [DecidableEq P]

def queue (pr : Producer P ι) (p : P) (kind : Kind) : List (Change ι) :=
  ((pr.peers p).map (·.queue kind)).getD []

def bootOf (pr : Producer P ι) (p : P) : Nat :=
  ((pr.peers p).map (·.boot)).getD 0

def rebuildOf (pr : Producer P ι) (p : P) : Rebuild :=
  ((pr.peers p).map (·.rebuild)).getD .done

def setPeer (pr : Producer P ι) (p : P) (out : Option (Outbound ι)) : Producer P ι :=
  { pr with peers := Function.update pr.peers p out }

def mark (pr : Producer P ι) (kind : Kind) (id : ι) (vpeer : Option P) : Producer P ι :=
  let seq := pr.produced kind + 1
  { pr with
    produced := Function.update pr.produced kind seq
    peers := fun p => (pr.peers p).map fun out =>
      if vpeer ≠ none ∧ vpeer ≠ some p then out
      else out.setQueue kind (out.queue kind ++ [⟨id, seq⟩]) }

def markCheckChanged (pr : Producer P ι) (check : MarkedCheck ι) (vpeer : Option P) : Producer P ι :=
  if check.selfcheck then pr
  else if check.configSeq ≤ 0 then pr
  else pr.mark .checks check.checkid vpeer

def markFilterChanged (pr : Producer P ι) (name : ι) (vpeer : Option P) : Producer P ι :=
  pr.mark .filters name vpeer

/-- `update_peer` up to the call of `noit_peer_rebuild_changelog`. -/
def updatePeer (pr : Producer P ι) (p : P) (boot : Nat) : Producer P ι :=
  let out := (pr.peers p).getD ⟨0, .done, fun _ => []⟩
  pr.setPeer p (some (if out.boot ≠ boot then { out with boot := boot, rebuild := .clearing .checks }
    else out))

/-- The rebuild of a peer's change log goes one step on. -/
def rebuildChangelog (pr : Producer P ι) (p : P) : Producer P ι :=
  pr.setPeer p ((pr.peers p).map Outbound.rebuildStep)

def buildFilterChangelog (pr : Producer P ι) (p : P) (set : MarkedFilter ι) : Producer P ι :=
  if set.seq ≥ 0 then pr.markFilterChanged set.name (some p) else pr

def buildCheckChangelog (pr : Producer P ι) (p : P) (check : MarkedCheck ι) : Producer P ι :=
  if check.configSeq ≥ 0 then pr.markCheckChanged check (some p) else pr

end Producer

/-- The loop that lists the changes up to `limit`, each object once and only
when it is there, with the last sequence number listed. -/
def listChanges {ι : Type} [DecidableEq ι] (present : ι → Bool) (limit : Int) :
    List (Change ι) → List ι → List ι × Int → List ι × Int
  | [], _, acc => acc
  | node :: rest, dedup, (nodes, lastSeen) =>
    if node.seq ≤ limit then
      if node.id ∈ dedup then listChanges present limit rest dedup (nodes, lastSeen)
      else if present node.id then
        listChanges present limit rest (node.id :: dedup) (nodes ++ [node.id], node.seq)
      else listChanges present limit rest (node.id :: dedup) (nodes, lastSeen)
    else (nodes, lastSeen)

/-- `number` stands for the connection the answer comes on. `boot`, which the code
does not keep, is that of the incarnation the job was started for. -/
structure Request where
  number : Nat
  boot : Nat
  kind : Kind
  prev : Int
  limit : Int
  deriving DecidableEq

/-- The answer of an incarnation. `covers` are the changes it stands for. -/
structure Response (ι : Type) where
  request : Request
  boot : Nat
  covers : List (Change ι)
  nodes : List ι
  seq : Option Int
  deriving DecidableEq

namespace Producer

variable {P ι : Type} [DecidableEq P] [DecidableEq ι]

def eatSeen (prevEnd : Int) (queue : List (Change ι)) : List (Change ι) :=
  queue.dropWhile fun change => change.seq ≤ prevEnd

/-- `noit_cluster_xml_check_changes` and `noit_cluster_xml_filter_changes`. An
unknown peer, or one with another name in its certificate, gets nothing. -/
def xmlChanges (pr : Producer P ι) (cnOk : P → Bool) (p : P) (req : Request) (present : ι → Bool) :
    Producer P ι × Response ι :=
  match pr.peers p with
  | none => (pr, ⟨req, pr.boot, [], [], none⟩)
  | some out =>
    if cnOk p then
      let queue := eatSeen req.prev (out.queue req.kind)
      let (nodes, lastSeen) := listChanges present req.limit queue [] ([], 0)
      (pr.setPeer p (some (out.setQueue req.kind queue)),
        ⟨req, pr.boot, queue.takeWhile fun change => change.seq ≤ req.limit, nodes, some lastSeen⟩)
    else (pr, ⟨req, pr.boot, [], [], none⟩)

end Producer

structure Inbound where
  prevFetched : Int
  fetched : Int
  available : Int
  lastBatch : Int

structure Span where
  prev : Int
  limit : Int
  batchSize : Int
  success : Bool

/-- A job in flight. `todo` are the kinds still to be fetched; `number` and
`boot` are as in the requests. -/
structure Job where
  number : Nat
  boot : Nat
  spans : Kind → Span
  todo : List Kind

structure Consumer where
  boot : Nat
  inbound : Kind → Inbound
  job : Option Job
  jobs : Nat

structure Heartbeat where
  boot : Nat
  seq : Kind → Option Int

namespace Consumer

def spanFor (batchSize : Nat) (inb : Inbound) : Span :=
  let prev := inb.fetched
  let limit :=
    if batchSize > 0 ∧ inb.available - prev > batchSize then prev + batchSize else inb.available
  if inb.prevFetched = limit ∧ inb.lastBatch = 0 then ⟨0, 0, 0, false⟩ else ⟨prev, limit, 0, false⟩

def possiblyStartJob (batchSize : Nat) (inCluster : Bool) (c : Consumer) : Consumer :=
  match c.job with
  | some _ => c
  | none =>
    if !inCluster then c
    else if (c.inbound .checks).lastBatch ≠ 0 ∨ (c.inbound .filters).lastBatch ≠ 0 ∨
        (c.inbound .checks).available ≠ (c.inbound .checks).prevFetched ∨
        (c.inbound .filters).available ≠ (c.inbound .filters).prevFetched then
      let spans := fun kind => spanFor batchSize (c.inbound kind)
      let todo := [Kind.filters, Kind.checks].filter fun kind => (spans kind).limit ≠ 0
      { c with job := some ⟨c.jobs + 1, c.boot, spans, todo⟩, jobs := c.jobs + 1 }
    else c

def updatePeer (batchSize : Nat) (inCluster : Bool) (hb : Heartbeat) (c : Consumer) : Consumer :=
  let c :=
    if c.boot ≠ hb.boot then
      { c with
        boot := hb.boot
        inbound := fun kind => { c.inbound kind with fetched := 0, prevFetched := 0 } }
    else c
  possiblyStartJob batchSize inCluster
    { c with inbound := fun kind =>
        { c.inbound kind with available := (hb.seq kind).getD (c.inbound kind).available } }

def finishSpan (span : Span) (inb : Inbound) : Inbound where
  lastBatch := span.batchSize
  prevFetched := if span.success ∧ span.prev ≠ 0 then span.prev else inb.prevFetched
  fetched := if span.success ∧ span.limit ≠ 0 then span.limit else inb.fetched
  available := inb.available

def finish (batchSize : Nat) (inCluster : Bool) (job : Job) (c : Consumer) : Consumer :=
  possiblyStartJob batchSize inCluster
    { c with job := none, inbound := fun kind => finishSpan (job.spans kind) (c.inbound kind) }

end Consumer

/-- A peer, the requests it has sent, the responses to them, and those among the
responses it has processed. -/
structure Link (ι : Type) where
  consumer : Consumer
  requests : List Request
  responses : List (Response ι)
  processed : List (Response ι)

structure Cluster (P ι : Type) where
  producer : Producer P ι
  links : P → Link ι
  beats : List Heartbeat

def Link.start (ι : Type) : Link ι := ⟨⟨0, fun _ => ⟨0, 0, 0, 0⟩, none, 0⟩, [], [], []⟩

def Cluster.start (P ι : Type) : Cluster P ι where
  producer := ⟨1, fun _ => 0, fun _ => none⟩
  links := fun _ => Link.start ι
  beats := []

inductive ClusterAct (P ι : Type) where
  | markCheck (check : MarkedCheck ι)
  | markFilter (name : ι)
  | restart
  | meet (p : P) (boot : Nat)
  | rebuild (p : P)
  | relistFilter (p : P) (set : MarkedFilter ι)
  | relistCheck (p : P) (check : MarkedCheck ι)
  | beat (carries : Kind → Bool)
  | hear (p : P) (i : Nat) (inCluster : Bool)
  | request (p : P)
  | serve (p : P) (req : Request) (present : ι → Bool)
  | process (p : P) (resp : Response ι) (result : Int)
  | giveUp (p : P)
  | finish (p : P) (inCluster : Bool)

section

variable {P ι : Type} [DecidableEq P] [DecidableEq ι]

def Cluster.setLink (s : Cluster P ι) (p : P) (link : Link ι) : Cluster P ι :=
  { s with links := Function.update s.links p link }

def Link.setConsumer (l : Link ι) (c : Consumer) : Link ι := { l with consumer := c }

def Link.request (l : Link ι) : Option (Link ι) :=
  match l.consumer.job with
  | some ⟨number, boot, spans, kind :: _⟩ =>
    some { l with requests :=
      ⟨number, boot, kind, (spans kind).prev, (spans kind).limit⟩ :: l.requests }
  | _ => none

/-- The answer to the request of the job has come; `result` is what
`noit_check_process_repl` or `noit_filters_process_repl` made of it. -/
def Link.process (l : Link ι) (resp : Response ι) (result : Int) : Option (Link ι) :=
  match l.consumer.job with
  | some ⟨number, boot, spans, kind :: todo⟩ =>
    if resp ∈ l.responses ∧ resp.request.number = number ∧ resp.request.kind = kind then
      let spans := Function.update spans kind
        { spans kind with batchSize := result, success := decide (0 ≤ result) }
      let l := l.setConsumer { l.consumer with job := some ⟨number, boot, spans, todo⟩ }
      some (if 0 ≤ result then { l with processed := resp :: l.processed } else l)
    else none
  | _ => none

def Link.giveUp (l : Link ι) : Option (Link ι) :=
  match l.consumer.job with
  | some ⟨number, boot, spans, _ :: todo⟩ =>
    some (l.setConsumer { l.consumer with job := some ⟨number, boot, spans, todo⟩ })
  | _ => none

def Link.finish (batchSize : Nat) (inCluster : Bool) (l : Link ι) : Option (Link ι) :=
  match l.consumer.job with
  | some ⟨number, boot, spans, []⟩ =>
    some (l.setConsumer (l.consumer.finish batchSize inCluster ⟨number, boot, spans, []⟩))
  | _ => none

def clusterStep (batchSize : Nat) (cnOk : P → Bool) (s : Cluster P ι) :
    ClusterAct P ι → Option (Cluster P ι)
  | .markCheck check => some { s with producer := s.producer.markCheckChanged check none }
  | .markFilter name => some { s with producer := s.producer.markFilterChanged name none }
  | .restart => some { s with producer := ⟨s.producer.boot + 1, fun _ => 0, fun _ => none⟩ }
  | .meet p boot =>
    if s.producer.rebuildOf p = .done then some { s with producer := s.producer.updatePeer p boot } else none
  | .rebuild p => some { s with producer := s.producer.rebuildChangelog p }
  | .relistFilter p set =>
    if s.producer.rebuildOf p = .marking .filters then
      some { s with producer := s.producer.buildFilterChangelog p set }
    else none
  | .relistCheck p check =>
    if s.producer.rebuildOf p = .marking .checks then
      some { s with producer := s.producer.buildCheckChangelog p check }
    else none
  | .beat carries =>
    let seq := fun kind => if carries kind then some (s.producer.produced kind) else none
    some { s with beats := ⟨s.producer.boot, seq⟩ :: s.beats }
  | .hear p i inCluster =>
    s.beats[i]?.map fun hb =>
      s.setLink p ((s.links p).setConsumer ((s.links p).consumer.updatePeer batchSize inCluster hb))
  | .request p => (s.links p).request.map (s.setLink p)
  | .serve p req present =>
    if req ∈ (s.links p).requests then
      let (producer, resp) := s.producer.xmlChanges cnOk p req present
      let s := { s with producer := producer }
      some (s.setLink p { s.links p with responses := resp :: (s.links p).responses })
    else none
  | .process p resp result => ((s.links p).process resp result).map (s.setLink p)
  | .giveUp p => (s.links p).giveUp.map (s.setLink p)
  | .finish p inCluster => ((s.links p).finish batchSize inCluster).map (s.setLink p)

end

theorem Consumer.possiblyStartJob_cases (batchSize : Nat) (inCluster : Bool) (c : Consumer) :
    c.possiblyStartJob batchSize inCluster = c ∨
      c.job = none ∧ ∃ todo, c.possiblyStartJob batchSize inCluster = { c with
        job := some ⟨c.jobs + 1, c.boot, fun kind => spanFor batchSize (c.inbound kind), todo⟩
        jobs := c.jobs + 1 } := by
  unfold possiblyStartJob
  cases hj : c.job with
  | some job => exact .inl rfl
  | none =>
    simp only
    split_ifs with hc hw
    · exact .inl rfl
    · exact .inr ⟨trivial, _, rfl⟩
    · exact .inl rfl

section

variable {ι : Type} {l l' : Link ι}

theorem Link.request_eq (h : l.request = some l') :
    ∃ number boot spans kind todo, l.consumer.job = some ⟨number, boot, spans, kind :: todo⟩ ∧
      l' = { l with requests :=
        ⟨number, boot, kind, (spans kind).prev, (spans kind).limit⟩ :: l.requests } := by
  unfold Link.request at h
  split at h
  · next hj => exact ⟨_, _, _, _, _, hj, (Option.some.inj h).symm⟩
  · exact absurd h (by simp)

theorem Link.giveUp_eq (h : l.giveUp = some l') :
    ∃ number boot spans kind todo, l.consumer.job = some ⟨number, boot, spans, kind :: todo⟩ ∧
      l' = l.setConsumer { l.consumer with job := some ⟨number, boot, spans, todo⟩ } := by
  unfold Link.giveUp at h
  split at h
  · next hj => exact ⟨_, _, _, _, _, hj, (Option.some.inj h).symm⟩
  · exact absurd h (by simp)

theorem Link.finish_eq {batchSize : Nat} {inCluster : Bool} (h : l.finish batchSize inCluster = some l') :
    ∃ job, l.consumer.job = some job ∧ l' = l.setConsumer (l.consumer.finish batchSize inCluster job) := by
  unfold Link.finish at h
  split at h
  · next hj => exact ⟨_, hj, (Option.some.inj h).symm⟩
  · exact absurd h (by simp)

theorem Link.process_eq [DecidableEq ι] {resp : Response ι} {result : Int}
    (h : l.process resp result = some l') :
    ∃ number boot spans todo, l.consumer.job = some ⟨number, boot, spans, resp.request.kind :: todo⟩ ∧
      resp ∈ l.responses ∧ resp.request.number = number ∧
      l' = { l with
        consumer := { l.consumer with job := some ⟨number, boot, Function.update spans resp.request.kind
          { spans resp.request.kind with batchSize := result, success := decide (0 ≤ result) }, todo⟩ }
        processed := if 0 ≤ result then resp :: l.processed else l.processed } := by
  unfold Link.process at h
  split at h
  · next number boot spans kind todo hj =>
    split_ifs at h with hresp hpos
    · obtain ⟨hmem, hnum, rfl⟩ := hresp
      refine ⟨number, boot, spans, todo, hj, hmem, hnum, ?_⟩
      rw [if_pos hpos]
      exact (Option.some.inj h).symm
    · obtain ⟨hmem, hnum, rfl⟩ := hresp
      refine ⟨number, boot, spans, todo, hj, hmem, hnum, ?_⟩
      rw [if_neg hpos]
      exact (Option.some.inj h).symm
  · exact absurd h (by simp)

end

end Reconnoiter
