import Reconnoiter.Uuid
import Reconnoiter.Machine

/-! The registry of checks of `noit_check.c`: the checks in memory, the table
`polls` by uuid and the list `polls_by_name`, whose comparator looks at target
and name only. An operation that fails an assertion has no result. -/

namespace Reconnoiter

structure Flags where
  running : Bool := false
  killed : Bool := false
  disabled : Bool := false
  unconfig : Bool := false
  transient : Bool := false
  resolve : Bool := false
  resolved : Bool := false
  deleted : Bool := false
  suppressStatus : Bool := false
  suppressMetrics : Bool := false
  preferIpv6 : Bool := false
  singleResolve : Bool := false
  passiveCollection : Bool := false
  deriving DecidableEq

def Flags.or (a b : Flags) : Flags where
  running := a.running || b.running
  killed := a.killed || b.killed
  disabled := a.disabled || b.disabled
  unconfig := a.unconfig || b.unconfig
  transient := a.transient || b.transient
  resolve := a.resolve || b.resolve
  resolved := a.resolved || b.resolved
  deleted := a.deleted || b.deleted
  suppressStatus := a.suppressStatus || b.suppressStatus
  suppressMetrics := a.suppressMetrics || b.suppressMetrics
  preferIpv6 := a.preferIpv6 || b.preferIpv6
  singleResolve := a.singleResolve || b.singleResolve
  passiveCollection := a.passiveCollection || b.passiveCollection

abbrev Config := List (Bytes × Bytes)

/-- `noit_check_t`, as far as it is configuration or index. -/
structure Check where
  checkid : Uuid
  module : Bytes
  target : Option Bytes := none
  name : Option Bytes := none
  targetIp : Bytes := []
  flags : Flags := {}
  live : Bool := false
  filterset : Option Bytes := none
  config : Option Config := none
  mconfigs : List (Option Config) := []
  period : Nat := 0
  timeout : Nat := 0
  transientMinPeriod : Int := 0
  transientPeriodGranularity : Int := 0
  oncheck : Option Bytes := none
  configSeq : Int := 0
  deriving DecidableEq

def Check.key (c : Check) : Option Bytes × Option Bytes := (c.target, c.name)

structure CheckArgs where
  target : Bytes
  name : Bytes
  filterset : Option Bytes
  config : Option Config
  mconfigs : Option (List (Option Config))
  period : Nat
  timeout : Nat
  transientMinPeriod : Int
  transientPeriodGranularity : Int
  oncheck : Option Bytes
  seq : Int
  flags : Flags

def CheckArgs.normalized (args : CheckArgs) : CheckArgs := { args with seq := max args.seq 0 }

inductive ModuleKind where
  | missing
  | inert
  | initiates
  deriving DecidableEq

/-- What an operation finds around it: `parseIp` reads an address (preferring
IPv6, and that only) and gives its text, `fetch` asks the resolver. -/
structure RegistryEnv where
  parseIp : Bool → Bool → Bytes → Option Bytes
  fetch : Bytes → Bool → Option Bytes
  dnsIgnoreList : List Bytes
  resolveTargetsOff : Bool
  moduleKind : Bytes → ModuleKind
  firedRecently : Bool

structure Registry where
  heap : Nat → Check
  next : Nat
  polls : Uuid → Option Nat
  byName : List Nat

namespace Registry

def start : Registry where
  heap := fun _ => { checkid := Uuid.zero, module := [] }
  next := 0
  polls := fun _ => none
  byName := []

def set (s : Registry) (p : Nat) (c : Check) : Registry := { s with heap := Function.update s.heap p c }

def modify (s : Registry) (p : Nat) (f : Check → Check) : Registry := s.set p (f (s.heap p))

def find (s : Registry) (key : Option Bytes × Option Bytes) : Option Nat :=
  s.byName.find? fun q => (s.heap q).key = key

def removeNode (s : Registry) (q : Nat) : Registry := { s with byName := s.byName.erase q }

def insert (s : Registry) (p : Nat) : Option Registry :=
  if (s.find (s.heap p).key).isSome then none else some { s with byName := p :: s.byName }

end Registry

def Check.rename (c : Check) (newname newip : Option Bytes) : Check :=
  { c with name := newname.or c.name, targetIp := newip.getD c.targetIp }

def Check.disable (c : Check) : Check := { c with flags := { c.flags with disabled := true } }

namespace Registry

def unlist (s : Registry) (c : Check) : Registry :=
  match s.find c.key with
  | some q => s.removeNode q
  | none => s

def addToList (s : Registry) (p : Nat) (newname newip : Option Bytes) : Option (Registry × Int) :=
  let c := s.heap p
  if c.flags.transient then some (s.set p (c.rename newname newip), 1)
  else if c.name = none ∧ newname = none then none
  else
    let s := if c.name ≠ none then s.unlist c else s
    let s := s.set p (c.rename newname newip)
    match s.insert p with
    | some s => some (s, 0)
    | none => some (s.modify p Check.disable, -1)

def setIp (env : RegistryEnv) (s : Registry) (p : Nat) (ipStr : Bytes) (newname : Option Bytes) :
    Option (Registry × Bool) :=
  let c := s.heap p
  let ip := env.parseIp c.flags.preferIpv6 c.flags.singleResolve ipStr
  let newTargetIp := ip.getD []
  if c.name = none ∨ c.targetIp ≠ newTargetIp then
    let newip := if ip ≠ none ∧ c.targetIp ≠ newTargetIp then some newTargetIp else none
    (s.addToList p newname newip).map fun r => (r.1, ip.isNone)
  else some (s, ip.isNone)

def resolve (env : RegistryEnv) (s : Registry) (p : Nat) : Option (Registry × Int) :=
  let c := s.heap p
  if !c.flags.resolve then some (s, 1)
  else
    match env.fetch (c.target.getD []) c.flags.preferIpv6 with
    | some ip =>
      ((s.set p { c with flags := { c.flags with resolved := true } }).setIp env p ip none).map
        fun r => (r.1, 0)
    | none => some (s.set p { c with flags := { c.flags with resolved := false } }, -1)

/-- The change of the target, with the check out of the list meanwhile if it is
the one listed under its name. -/
def retarget (s : Registry) (p : Nat) (target : Bytes) : Registry :=
  let c := s.heap p
  let existing := if c.target ≠ none ∧ c.name ≠ none then s.find c.key else none
  let changed := (if existing = some p then s.removeNode p else s).set p { c with target := some target }
  if existing = some p then (changed.insert p).getD changed else changed

end Registry

def Check.applyResolveFlags (flags : Flags) (c : Check) : Check :=
  { c with flags := { c.flags with
      preferIpv6 := flags.preferIpv6, singleResolve := flags.singleResolve, resolve := flags.resolve } }

def targetExtension (target : Bytes) : Option Bytes :=
  if 46 ∈ target then some (target.reverse.takeWhile (· ≠ 46)).reverse else none

def RegistryEnv.ignores (env : RegistryEnv) (target : Bytes) : Bool :=
  match targetExtension target with
  | some extension => extension ≠ [] && env.dnsIgnoreList.contains extension
  | none => false

def Check.needsResolve (env : RegistryEnv) (target : Bytes) (c : Check) : Check :=
  { c with flags := { c.flags with resolve := !(env.ignores target), resolved := false } }

def Check.configure (args : CheckArgs) (flags : Flags) (c : Check) : Check :=
  { c with
    filterset := args.filterset
    config := args.config.or c.config
    mconfigs := args.mconfigs.getD c.mconfigs
    oncheck := args.oncheck
    period := args.period
    timeout := args.timeout
    transientMinPeriod := args.transientMinPeriod
    transientPeriodGranularity := args.transientPeriodGranularity
    configSeq := args.seq
    flags := { c.flags with disabled := false, unconfig := false }.or flags }

def Check.activate (env : RegistryEnv) (c : Check) : Check :=
  if c.live then c
  else
    match env.moduleKind c.module with
    | .initiates => if c.flags.disabled then c else { c with live := true }
    | .inert => c
    | .missing => c.disable

namespace Registry

def address (env : RegistryEnv) (s : Registry) (p : Nat) (args : CheckArgs) : Option (Registry × Flags) := do
  let (s, failed) ← s.setIp env p args.target (some args.name)
  if failed then
    let flags := if env.resolveTargetsOff then { args.flags with disabled := true, unconfig := true }
      else args.flags
    let (s, _) ← (s.modify p (Check.needsResolve env args.target)).resolve env p
    return (s, flags)
  else return (s, args.flags)

def updateIdle (env : RegistryEnv) (s : Registry) (p : Nat) (args : CheckArgs) :
    Option (Registry × Int) := do
  let s := (s.retarget p args.target).modify p (Check.applyResolveFlags args.flags)
  let (s, flags) ← s.address env p args
  let s := s.modify p (Check.configure args flags)
  let s := if (s.heap p).flags.transient then s else s.modify p (Check.activate env)
  s.addToList p none none

/-- `noit_poller_free_check`: a check still listed must not go. -/
def freeCheck (env : RegistryEnv) (s : Registry) (q : Nat) : Option Registry :=
  let c := s.heap q
  let s := s.set q { c with flags := { c.flags with killed := true } }
  if c.flags.running ∨ c.flags.passiveCollection ∧ env.firedRecently then some s
  else if s.find c.key = some q then none
  else some s

def schedule (env : RegistryEnv) (s : Registry) (module : Bytes) (args : CheckArgs)
    (uuid generated : Uuid) : Option Registry := do
  let p := s.next
  let checkid := if uuid = Uuid.zero then generated else uuid
  let s := { s.set p { checkid := checkid, module := module } with next := p + 1 }
  let (s, _) ← s.updateIdle env p args.normalized
  let old := s.polls checkid
  let s := { s with polls := Function.update s.polls checkid (some p) }
  match old with
  | some q => s.freeCheck env q
  | none => some s

def deschedule (env : RegistryEnv) (s : Registry) (uuid : Uuid) (readding : Bool) :
    Option (Registry × Int) :=
  match s.polls uuid with
  | none => some (s, -1)
  | some q =>
    let c := s.heap q
    let s := s.set q { c with flags := { c.flags with disabled := true, killed := true, deleted := true } }
    if c.configSeq = 0 ∨ readding then do
      let listed ← s.find c.key
      let s := { s.removeNode listed with polls := Function.update s.polls uuid none }
      let s ← s.freeCheck env q
      return (s, 1)
    else some (s, 0)

def update (env : RegistryEnv) (s : Registry) (p : Nat) (args : CheckArgs) : Option (Registry × Int) := do
  let c := s.heap p
  let configSeq := if args.seq < 0 then 0 else c.configSeq
  let s := s.set p { c with configSeq := configSeq }
  let args := args.normalized
  if configSeq > args.seq then return (s, -1)
  else if c.flags.running then
    let (s, _) ← s.deschedule env c.checkid true
    let s ← s.schedule env c.module args c.checkid c.checkid
    return (s, 0)
  else s.updateIdle env p args

end Registry

inductive RegistryAct where
  | schedule (env : RegistryEnv) (module : Bytes) (args : CheckArgs) (uuid generated : Uuid)
  | update (env : RegistryEnv) (uuid : Uuid) (args : CheckArgs)
  | resolve (env : RegistryEnv) (uuid : Uuid)
  | deschedule (env : RegistryEnv) (uuid : Uuid) (readding : Bool)
  -- `check_recycle_bin_processor_internal`, for one check.
  | recycle (env : RegistryEnv) (uuid : Uuid)
  | setRunning (uuid : Uuid) (running : Bool)

def registryStep (s : Registry) : RegistryAct → Option Registry
  | .schedule env module args uuid generated => s.schedule env module args uuid generated
  | .update env uuid args => (s.polls uuid).bind fun p => (s.update env p args).map Prod.fst
  | .resolve env uuid => (s.polls uuid).bind fun p => (s.resolve env p).map Prod.fst
  | .deschedule env uuid readding => (s.deschedule env uuid readding).map Prod.fst
  | .recycle env uuid => (s.polls uuid).bind fun p =>
    if (s.heap p).flags.deleted then
      ((s.modify p fun c => { c with configSeq := 0 }).deschedule env uuid false).map Prod.fst
    else none
  | .setRunning uuid running => (s.polls uuid).map fun p =>
    s.modify p fun c => { c with flags := { c.flags with running := running } }

end Reconnoiter
