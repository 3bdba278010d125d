import Reconnoiter.DirectorInterests
import Reconnoiter.Canonical
import Reconnoiter.Machine

/-! Searches and the search-miss cache of `noit_metric_director.c`. Every step
of the machine is one access to shared data, so a run is an interleaving of
registrations, adjustments and distributions. -/

namespace Reconnoiter

/-- `tag_search_registration_t` with the place it is registered at. -/
structure Search (n : Nat) (α : Type) where
  astId : Nat
  lane : Fin n
  accountId : Nat
  checkUuid : Uuid
  metricName : Bytes
  ast : α

structure MissKey where
  accountId : Nat
  accountGen : Nat
  checkUuid : Uuid
  checkGen : Nat
  metricName : Bytes
  deriving DecidableEq

inductive RegPhase where
  | account
  | check
  | name
  | put
  | bump
  deriving DecidableEq

/-- What is left of the evaluation of the searches: tables still to be found,
and lanes still to be visited. -/
inductive Item (n : Nat) where
  | findCheck (uuid : Uuid)
  | findNames (uuid : Uuid) (left found : List Bytes)
  | visit (uuid : Uuid) (name : Bytes) (lane : Fin n)

/-- How far `distribute_metric` has come. The account generation read for the
lookup in the cache is kept along; the code forgets it. -/
inductive Phase (n : Nat) where
  | exact (left : List (Uuid × Bytes))
  | account
  | lookupAccountGen
  | lookupCheckGen (accountGen : Nat)
  | lookup (key : MissKey)
  | evaluate (accountGen : Nat) (agenda : List (Item n)) (searchInterest : Bool)
  | storeAccountGen (accountGen : Nat)
  | storeCheckGen (accountGen : Nat)
  | store (key : MissKey)
  | deliver

structure Distribution (n : Nat) where
  message : MetricId
  interests : Interests n
  hasInterests : UInt16
  phase : Phase n

/-- The shared data of the director, and the calls in progress. `ended` is kept
for the statements: the account generation a registration ended with. -/
structure Director (n : Nat) (α : Type) where
  idLevel : IdLevel n
  accounts : List Nat
  checks : List (Nat × Uuid)
  names : List (Nat × Uuid × Bytes)
  registered : List (Search n α)
  gen : Nat → Nat
  checkGen : Uuid → Nat
  cache : List MissKey
  -- 32 bits in the source, where ids repeat after 2^32 registrations
  astCounter : Nat
  lanes : Lanes n MetricId
  registering : Nat → Option (Search n α × RegPhase)
  ended : Nat → Option Nat
  distributing : Nat → Option (Distribution n)

def Director.start (n : Nat) (α : Type) : Director n α where
  idLevel := fun _ => none
  accounts := []
  checks := []
  names := []
  registered := []
  gen := fun _ => 0
  checkGen := fun _ => 0
  cache := []
  astCounter := 1
  lanes := ⟨fun _ => [], fun _ => 0⟩
  registering := fun _ => none
  ended := fun _ => none
  distributing := fun _ => none

inductive DirectorAct (n : Nat) (α : Type) where
  | adjust (threadId : Int) (id : Uuid) (metric : Bytes) (adj : Int)
  | setCheckGeneration (uuid : Uuid) (gen : Nat)
  | register (threadId : Int) (accountId : Nat) (checkUuid : Uuid) (metricName : Bytes) (ast : α)
  | registerStep (astId : Nat)
  | deregister (threadId : Int) (accountId : Nat) (checkUuid : Uuid) (metricName : Bytes) (astId : Nat)
  | distribute (call : Nat) (accountId : Nat) (id : Uuid) (name : Bytes)
  -- `keep` says what is in the cache after an entry was stored.
  | distributeStep (call : Nat) (keep : MissKey → Bool)

section

variable {n : Nat} [NeZero n] {α : Type} (eval : α → MetricId → Bool) (nameLen : Bytes → Nat)

def registerStep (s : Director n α) (astId : Nat) : Option (Director n α) :=
  match s.registering astId with
  | none => none
  | some (search, .account) =>
    some { s with
      accounts := search.accountId :: s.accounts
      registering := Function.update s.registering astId (some (search, .check)) }
  | some (search, .check) =>
    some { s with
      checks := (search.accountId, search.checkUuid) :: s.checks
      registering := Function.update s.registering astId (some (search, .name)) }
  | some (search, .name) =>
    some { s with
      names := (search.accountId, search.checkUuid, search.metricName) :: s.names
      registering := Function.update s.registering astId (some (search, .put)) }
  | some (search, .put) =>
    some { s with
      registered := search :: s.registered
      registering := Function.update s.registering astId (some (search, .bump)) }
  | some (search, .bump) =>
    some { s with
      gen := Function.update s.gen search.accountId (s.gen search.accountId + 1)
      ended := Function.update s.ended astId (some (s.gen search.accountId + 1))
      registering := Function.update s.registering astId none }

def keyFits (m : MetricId) : Bool := m.name.length ≤ maxMetricTaggedName

def initialAgenda (m : MetricId) : List (Item n) := [.findCheck m.id, .findCheck Uuid.zero]

/-- The first item of the agenda, for the account of the message. A lane that
has interest already is not searched. -/
def evaluateItem (s : Director n α) (d : Distribution n) (searchInterest : Bool) (item : Item n)
    (rest : List (Item n)) : Distribution n × List (Item n) × Bool :=
  match item with
  | .findCheck uuid =>
    if (d.message.accountId, uuid) ∈ s.checks then
      (d, rest ++ [.findNames uuid [d.message.bareName, []] []], searchInterest)
    else (d, rest, searchInterest)
  | .findNames uuid (name :: left) found =>
    let found := if (d.message.accountId, uuid, name) ∈ s.names then found ++ [name] else found
    (d, .findNames uuid left found :: rest, searchInterest)
  | .findNames uuid [] found =>
    (d, (found.flatMap fun name => (List.finRange n).map (.visit uuid name)) ++ rest, searchInterest)
  | .visit uuid name lane =>
    let bucket := s.registered.filter fun r =>
      r.accountId = d.message.accountId ∧ r.checkUuid = uuid ∧ r.metricName = name ∧ r.lane = lane
    if d.interests lane ≠ 0 then (d, rest, searchInterest)
    else if bucket.any fun r => eval r.ast d.message then
      ({ d with interests := Function.update d.interests lane 1, hasInterests := 1 }, rest, true)
    else (d, rest, searchInterest)

def Director.set (s : Director n α) (call : Nat) (d : Distribution n) : Director n α :=
  { s with distributing := Function.update s.distributing call (some d) }

def advance (s : Director n α) (d : Distribution n) : Distribution n :=
  let m := d.message
  match d.phase with
  | .exact (form :: left) =>
    let (interests, hasInterests) := takeEntry s.idLevel (d.interests, d.hasInterests) form
    ⟨m, interests, hasInterests, .exact left⟩
  | .exact [] => { d with phase := .account }
  | .account =>
    if m.accountId ∈ s.accounts then { d with phase := .lookupAccountGen }
    else { d with phase := .deliver }
  | .lookupAccountGen =>
    let gen := s.gen m.accountId
    if keyFits m then { d with phase := .lookupCheckGen gen }
    else { d with phase := .evaluate gen (initialAgenda m) false }
  | .lookupCheckGen gen =>
    { d with phase := .lookup ⟨m.accountId, gen, m.id, s.checkGen m.id, m.name⟩ }
  | .lookup key =>
    if key ∈ s.cache then { d with phase := .deliver }
    else { d with phase := .evaluate key.accountGen (initialAgenda m) false }
  | .evaluate gen [] searchInterest =>
    if searchInterest || !(keyFits m) then { d with phase := .deliver }
    else { d with phase := .storeAccountGen gen }
  | .evaluate gen (item :: rest) searchInterest =>
    let (d, agenda, searchInterest) := evaluateItem eval s d searchInterest item rest
    { d with phase := .evaluate gen agenda searchInterest }
  | .storeAccountGen _ => { d with phase := .storeCheckGen (s.gen m.accountId) }
  | .storeCheckGen gen =>
    { d with phase := .store ⟨m.accountId, gen, m.id, s.checkGen m.id, m.name⟩ }
  | .store _ => { d with phase := .deliver }
  | .deliver => d

def distributeStep (s : Director n α) (call : Nat) (keep : MissKey → Bool) : Option (Director n α) :=
  match s.distributing call with
  | none => none
  | some d =>
    match d.phase with
    | .store key =>
      some { s.set call (advance eval s d) with cache := (key :: s.cache).filter keep }
    | .deliver =>
      let lanes := if d.hasInterests ≠ 0 then
        distributeMessageWithInterests 0 d.interests d.message s.lanes else s.lanes
      some { s with lanes := lanes, distributing := Function.update s.distributing call none }
    | _ => some (s.set call (advance eval s d))

def directorStep (s : Director n α) : DirectorAct n α → Option (Director n α)
  | .adjust threadId id metric adj =>
    some { s with idLevel := (adjustMetricInterestOnThread s.idLevel threadId id metric adj).1 }
  | .setCheckGeneration uuid gen => some { s with checkGen := Function.update s.checkGen uuid gen }
  | .register threadId accountId checkUuid metricName ast =>
    let search : Search n α :=
      ⟨s.astCounter, safeThreadId n threadId, accountId, checkUuid, metricName, ast⟩
    some { s with
      astCounter := s.astCounter + 1
      registering := Function.update s.registering s.astCounter (some (search, .account)) }
  | .registerStep astId => registerStep s astId
  | .deregister threadId accountId checkUuid metricName astId =>
    some { s with registered := s.registered.filter fun r =>
      ¬ (r.lane = safeThreadId n threadId ∧ r.accountId = accountId ∧ r.checkUuid = checkUuid ∧
        r.metricName = metricName ∧ r.astId = astId) }
  | .distribute call accountId id name =>
    match s.distributing call with
    | some _ => none
    | none =>
      let m : MetricId := ⟨accountId, id, name, nameLen name⟩
      some (s.set call ⟨m, 0, 0, .exact m.forms⟩)
  | .distributeStep call keep => distributeStep eval s call keep

end

end Reconnoiter
