import Reconnoiter.RegistryIndex

/-! Loading check definitions into the registry: `noit_poller_process_check_conf`
for the XML configuration, and its counterpart for the LMDB store. -/

namespace Reconnoiter

/-- The attributes of a `check` element, its own or inherited as the code asks. -/
structure CheckSection where
  uuid : Option Bytes
  envOff : Bool
  seq : Option Int
  deleted : Option Bytes
  target : Option Bytes
  module : Option Bytes
  filterset : Option Bytes
  resolveRtype : Option Bytes
  name : Option Bytes
  minimumPeriod : Option Int
  maximumPeriod : Option Int
  period : Option Int
  transientMinPeriod : Option Int
  transientPeriodGranularity : Option Int
  oncheck : Option Bytes
  timeout : Option Int
  disable : Option Bool
  config : Config
  mconfigs : Option (List (Option Config))

structure LmdbCheck where
  target : Option Bytes
  module : Option Bytes
  name : Option Bytes
  filterset : Option Bytes
  seq : Option Int
  period : Option Int
  timeout : Option Int
  oncheck : Option Bytes
  deleted : Option Bytes
  resolveRtype : Option Bytes
  transientMinPeriod : Option Int
  transientPeriodGranularity : Option Int
  config : Config
  mconfigs : Option (List (Option Config))

/-- What `/noit/checks` has for checks of the store that lack it. -/
structure LmdbInherited where
  target : Option Bytes
  module : Option Bytes
  filterset : Option Bytes
  oncheck : Option Bytes
  resolveRtype : Option Bytes
  period : Option Int
  timeout : Option Int
  globalMinimumPeriod : Int
  globalMaximumPeriod : Int

-- The texts `prefer-ipv4`, `prefer-ipv6`, `force-ipv4`, `force-ipv6`.
def preferIpv4 : Bytes := [112, 114, 101, 102, 101, 114, 45, 105, 112, 118, 52]
def preferIpv6 : Bytes := [112, 114, 101, 102, 101, 114, 45, 105, 112, 118, 54]
def forceIpv4 : Bytes := [102, 111, 114, 99, 101, 45, 105, 112, 118, 52]
def forceIpv6 : Bytes := [102, 111, 114, 99, 101, 45, 105, 112, 118, 54]

def noneTarget : Bytes := [110, 111, 110, 101]
def deletedText : Bytes := [100, 101, 108, 101, 116, 101, 100]

def calcRtypeFlag (resolveRtype : Bytes) : Flags :=
  { preferIpv6 := resolveRtype = Reconnoiter.preferIpv6 || resolveRtype = forceIpv6
    singleResolve := resolveRtype = forceIpv4 || resolveRtype = forceIpv6 }

def genericSafeString (p : Bytes) : Bool := p.all fun c => 32 ≤ c && c ≤ 126

def stringbuf (size : Nat) (attr : Option Bytes) : Option Bytes := attr.map (·.take (size - 1))

def clampPeriod (minimum maximum period : Int) : Int :=
  let period := if period < minimum then minimum else period
  if period > maximum then maximum else period

def asUint32 (x : Int) : Nat := (x % 4294967296).toNat

def statusFlags (deleted busted disabled : Bool) (resolveRtype : Bytes) : Flags :=
  ({ deleted := deleted, unconfig := busted, disabled := busted || disabled } : Flags).or
    (calcRtypeFlag resolveRtype)

def checkTimeout (noPeriod : Bool) (period timeout : Int) : Int :=
  let timeout := max timeout 0
  if !noPeriod && timeout ≥ period then period.tdiv 2 else timeout

namespace CheckSection

variable (ut : UuidText) (sec : CheckSection)

def checkid : Option Uuid := (stringbuf 37 sec.uuid).bind ut.parse

def seqOrZero : Int := sec.seq.getD 0

-- The length passed for the text of the attribute is zero, so its presence is all that counts.
def isDeleted : Bool := sec.deleted.isSome

def moduleName : Bytes := (stringbuf 256 sec.module).getD []

def ownName : Bytes := (stringbuf 256 sec.name).getD sec.moduleName

def noPeriod : Bool := sec.period.getD 0 = 0

def periodMs : Int :=
  if sec.noPeriod then 0
  else clampPeriod (sec.minimumPeriod.getD 1000) (sec.maximumPeriod.getD 300000) (sec.period.getD 0)

def oncheckText : Bytes := (stringbuf 1024 sec.oncheck).getD []

def noOncheck : Bool := sec.oncheckText = []

def busted : Bool :=
  sec.target.isNone || !(genericSafeString ((stringbuf 256 sec.target).getD [])) || sec.module.isNone ||
    !(genericSafeString sec.ownName) ||
    (!sec.isDeleted && (sec.noPeriod && sec.noOncheck || !(sec.noPeriod || sec.noOncheck) ||
      sec.timeout.isNone))

def args (uuid : Uuid) : CheckArgs where
  target := if sec.isDeleted then noneTarget else (stringbuf 256 sec.target).getD []
  name := if sec.isDeleted then ut.unparseLower uuid else sec.ownName
  filterset := some ((stringbuf 256 sec.filterset).getD [])
  config := some sec.config
  mconfigs := sec.mconfigs
  period := asUint32 sec.periodMs
  timeout := asUint32
    (if sec.isDeleted then 0 else checkTimeout sec.noPeriod sec.periodMs (sec.timeout.getD 0))
  transientMinPeriod := max (sec.transientMinPeriod.getD 0) 0
  transientPeriodGranularity := max (sec.transientPeriodGranularity.getD 0) 0
  oncheck := if sec.noOncheck then none else some sec.oncheckText
  seq := sec.seqOrZero
  flags := statusFlags sec.isDeleted sec.busted
    (if sec.isDeleted then true else sec.disable.getD false)
    ((stringbuf 16 sec.resolveRtype).getD preferIpv4)

end CheckSection

namespace LmdbCheck

variable (ut : UuidText) (inh : LmdbInherited) (data : LmdbCheck)

def seqOrZero : Int := data.seq.getD 0

def isDeleted : Bool := stringbuf 16 data.deleted = some deletedText

def orInherited (size : Nat) (attr inherited : Option Bytes) : Option Bytes :=
  match stringbuf size attr with
  | some (c :: cs) => some (c :: cs)
  | _ => stringbuf size inherited

def noPeriod : Bool := data.period.isNone && inh.period.isNone

def periodMs : Int :=
  match data.period, inh.period with
  | some period, _ =>
    if period < inh.globalMinimumPeriod then inh.globalMinimumPeriod
    else if period > inh.globalMaximumPeriod then inh.globalMaximumPeriod else period
  | none, some period => clampPeriod inh.globalMinimumPeriod inh.globalMaximumPeriod period
  | none, none => 0

def noTimeout : Bool := data.timeout.isNone && inh.timeout.isNone

-- An inherited `oncheck` is used, but does not count as one.
def noOncheck : Bool := data.oncheck.isNone

def oncheckText : Bytes := (orInherited 1024 data.oncheck inh.oncheck).getD []

def busted : Bool :=
  !data.isDeleted && (data.noPeriod inh && data.noOncheck || !(data.noPeriod inh || data.noOncheck) ||
    data.noTimeout inh)

def args (uuid : Uuid) : CheckArgs where
  target := if data.isDeleted then noneTarget else (orInherited 256 data.target inh.target).getD []
  name := if data.isDeleted then ut.unparseLower uuid else (stringbuf 256 data.name).getD []
  filterset := some ((orInherited 256 data.filterset inh.filterset).getD [])
  config := some data.config
  mconfigs := data.mconfigs
  period := asUint32 (data.periodMs inh)
  timeout := asUint32 (if data.isDeleted then (data.timeout.or inh.timeout).getD 0
    else checkTimeout (data.noPeriod inh) (data.periodMs inh) ((data.timeout.or inh.timeout).getD 0))
  transientMinPeriod := max (data.transientMinPeriod.getD 0) 0
  transientPeriodGranularity := max (data.transientPeriodGranularity.getD 0) 0
  oncheck := if data.oncheckText inh = [] then none else some (data.oncheckText inh)
  seq := data.seqOrZero
  flags := statusFlags data.isDeleted (data.busted inh) data.isDeleted
    ((orInherited 16 data.resolveRtype inh.resolveRtype).getD preferIpv4)

def moduleName : Bytes := (orInherited 256 data.module inh.module).getD []

end LmdbCheck

namespace Registry

def foundAndBackdated (s : Registry) (uuid : Uuid) (configSeq : Int) : Registry × Bool × Bool :=
  match s.polls uuid with
  | none => (s, false, false)
  | some p =>
    let s := if configSeq < 0 then s.modify p fun c => { c with configSeq := 0 } else s
    (s, true, decide ((s.heap p).configSeq > configSeq))

def loadCheck (env : RegistryEnv) (s : Registry) (module : Bytes) (args : CheckArgs) (isDeleted : Bool)
    (uuid generated : Uuid) : Option Registry := do
  let (s, found, backdated) := s.foundAndBackdated uuid args.seq
  let s ← if found then (s.deschedule env uuid true).map Prod.fst else some s
  if backdated then return s
  else
    let s ← s.schedule env module args uuid generated
    if isDeleted then (s.deschedule env uuid false).map Prod.fst else return s

end Registry

inductive CheckSource where
  | xml (sec : CheckSection)
  | lmdb (inherited : LmdbInherited) (uuid : Uuid) (data : LmdbCheck)

namespace CheckSource

variable (ut : UuidText)

def checkid : CheckSource → Option Uuid
  | .xml sec => sec.checkid ut
  | .lmdb _ uuid _ => some uuid

def seq : CheckSource → Int
  | .xml sec => sec.seqOrZero
  | .lmdb _ _ data => data.seqOrZero

def envOff : CheckSource → Bool
  | .xml sec => sec.envOff
  | .lmdb _ _ _ => false

/-- `noit_poller_process_check_conf` and `noit_poller_lmdb_create_check_from_database_locked`. -/
def load (env : RegistryEnv) (generated : Uuid) (s : Registry) : CheckSource → Option Registry
  | .xml sec =>
    if sec.uuid = none then some s
    else if sec.envOff then some s
    else
      match sec.checkid ut with
      | none => some s
      | some uuid => s.loadCheck env sec.moduleName (sec.args ut uuid) sec.isDeleted uuid generated
  | .lmdb inh uuid data =>
    s.loadCheck env (data.moduleName inh) (data.args ut inh uuid) data.isDeleted uuid generated

end CheckSource

structure StillRegistered (s : Registry) (uuid : Uuid) (p : Nat) (t : Registry) : Prop where
  registered : t.polls uuid = some p
  listed : t.find (s.heap p).key = s.find (s.heap p).key
  check : t.heap p = s.heap p

section

variable {s t : Registry} {uuid : Uuid} {p : Nat} {env : RegistryEnv}

theorem polls_deschedule_readding {rv : Int} (hs : s.deschedule env uuid true = some (t, rv)) :
    t.polls uuid = none := by
  unfold Registry.deschedule at hs
  cases hp : s.polls uuid with
  | none =>
    rw [hp] at hs
    obtain ⟨rfl, _⟩ := Prod.mk.inj (Option.some.inj hs)
    exact hp
  | some q =>
    rw [hp] at hs
    simp only [or_true, if_true] at hs
    obtain ⟨listed, _, hs⟩ := Option.bind_eq_some_iff.mp hs
    obtain ⟨u, hu, hs⟩ := Option.bind_eq_some_iff.mp hs
    obtain ⟨rfl, _⟩ := Prod.mk.inj (Option.some.inj hs)
    rw [(Registry.polls_freeCheck env hu).1]
    exact Function.update_self _ _ _

theorem loadCheck_stale {module : Bytes} {args : CheckArgs} {isDeleted : Bool} {generated : Uuid}
    (hp : s.polls uuid = some p) (hseq : 0 ≤ args.seq) (hlt : args.seq < (s.heap p).configSeq)
    (hs : s.loadCheck env module args isDeleted uuid generated = some t) : t.polls uuid = none := by
  have hfound : s.foundAndBackdated uuid args.seq = (s, true, true) := by
    simp only [Registry.foundAndBackdated, hp, if_neg (not_lt.mpr hseq), decide_eq_true hlt]
  unfold Registry.loadCheck at hs
  simp only [hfound, if_true] at hs
  obtain ⟨u, hu, hs⟩ := Option.bind_eq_some_iff.mp hs
  obtain ⟨⟨u', rv⟩, hd, rfl⟩ := Option.map_eq_some_iff.mp hu
  obtain rfl := Option.some.inj hs
  exact polls_deschedule_readding hd

/-- A definition with a sequence number lower than the registered one leaves the
check alone only if it is not loaded at all. -/
theorem stale_definition_iff (ut : UuidText) (env : RegistryEnv) (generated : Uuid) (src : CheckSource)
    (hid : src.checkid ut = some uuid) (hp : s.polls uuid = some p) (hseq : 0 ≤ src.seq)
    (hlt : src.seq < (s.heap p).configSeq) :
    (∃ t, src.load ut env generated s = some t ∧ StillRegistered s uuid p t) ↔ src.envOff = true := by
  constructor
  · rintro ⟨t, ht, hstill⟩
    by_contra hoff
    have hgone : t.polls uuid = none := by
      cases src with
      | xml sec =>
        have hsome : sec.uuid ≠ none := by
          intro hn
          simp [CheckSource.checkid, CheckSection.checkid, stringbuf, hn] at hid
        simp only [CheckSource.checkid] at hid
        simp only [CheckSource.load, if_neg hsome, hid] at ht
        rw [if_neg (by simpa [CheckSource.envOff] using hoff)] at ht
        exact loadCheck_stale hp hseq hlt ht
      | lmdb inh uuid' data =>
        obtain rfl := Option.some.inj hid
        exact loadCheck_stale hp hseq hlt ht
    rw [hstill.registered] at hgone
    exact absurd hgone (by simp)
  · intro hoff
    cases src with
    | xml sec =>
      refine ⟨s, ?_, hp, rfl, rfl⟩
      simp only [CheckSource.envOff] at hoff
      simp only [CheckSource.load, hoff, if_true, ite_self]
    | lmdb inh uuid' data => exact absurd hoff (by simp [CheckSource.envOff])

end

def oneCheckSection (envOff : Bool) (seq : Int) : CheckSection where
  uuid := some (standardUnparseLower (List.Vector.replicate 16 1))
  envOff := envOff
  seq := some seq
  deleted := none
  target := some [116]
  module := some [104]
  filterset := none
  resolveRtype := none
  name := some [110]
  minimumPeriod := none
  maximumPeriod := none
  period := some 60000
  transientMinPeriod := none
  transientPeriodGranularity := none
  oncheck := none
  timeout := some 5000
  disable := none
  config := []
  mconfigs := none

theorem stale_definition_switched_off :
    (∃ t, (CheckSource.xml (oneCheckSection true 0)).load standardUuidText plainEnv Uuid.zero oneCheck =
        some t ∧ StillRegistered oneCheck (List.Vector.replicate 16 1) 0 t) ∧
      ¬ ∃ t, (CheckSource.xml (oneCheckSection false 0)).load standardUuidText plainEnv Uuid.zero
        oneCheck = some t ∧ StillRegistered oneCheck (List.Vector.replicate 16 1) 0 t := by
  have hlt : ∀ envOff, (CheckSource.xml (oneCheckSection envOff 0)).seq < (oneCheck.heap 0).configSeq := by
    decide +kernel
  have hid : ∀ envOff, (CheckSource.xml (oneCheckSection envOff 0)).checkid standardUuidText =
      some (List.Vector.replicate 16 1) := by
    decide +kernel
  have hiff := fun envOff => stale_definition_iff standardUuidText plainEnv Uuid.zero
    (CheckSource.xml (oneCheckSection envOff 0)) (hid envOff) (by decide +kernel) (le_refl 0) (hlt envOff)
  exact ⟨(hiff true).mpr rfl, fun h => absurd ((hiff false).mp h) (by decide)⟩

theorem stale_definition_fails :
    ¬ ∀ (env : RegistryEnv) (generated : Uuid) (src : CheckSource) (s : Registry) (uuid : Uuid) (p : Nat),
      src.checkid standardUuidText = some uuid → s.polls uuid = some p → 0 ≤ src.seq →
      src.seq < (s.heap p).configSeq →
      ∃ t, src.load standardUuidText env generated s = some t ∧ StillRegistered s uuid p t := by
  intro hclaim
  obtain ⟨t, ht, hstill⟩ := hclaim plainEnv Uuid.zero (CheckSource.xml (oneCheckSection false 0)) oneCheck
    (List.Vector.replicate 16 1) 0 (by decide +kernel) (by decide +kernel) (by decide +kernel)
    (by decide +kernel)
  have hgone : ((CheckSource.xml (oneCheckSection false 0)).load standardUuidText plainEnv Uuid.zero
      oneCheck).map (fun t => (t.polls (List.Vector.replicate 16 1)).isNone) = some true := by
    decide +kernel
  rw [ht, Option.map_some, hstill.registered] at hgone
  exact absurd hgone (by decide)

end Reconnoiter
