import Reconnoiter.Statsd

/-! The reference counts of the checks over one call of `statsd_handler`. The primary check is looked up, and
so referenced, once a call; the checks of a datagram's address are referenced for each datagram; every check
that a datagram was submitted to is dereferenced after it, the primary among them. -/

namespace Reconnoiter

abbrev RefCounts := Nat → Int

def checkRef (refs : RefCounts) (c : Nat) : RefCounts := Function.update refs c (refs c + 1)

def checkDeref (refs : RefCounts) (c : Nat) : RefCounts := Function.update refs c (refs c - 1)

theorem checkRef_apply (refs : RefCounts) (a c : Nat) :
    checkRef refs a c = refs c + if a = c then 1 else 0 := by
  by_cases h : a = c
  · simp [checkRef, h]
  · simp [checkRef, Function.update_of_ne (Ne.symm h), h]

theorem foldl_checkDeref_apply (checks : List Nat) (refs : RefCounts) (c : Nat) :
    checks.foldl checkDeref refs c = refs c - checks.count c := by
  induction checks generalizing refs with
  | nil => simp
  | cons a checks ih =>
    rw [List.foldl_cons, ih, List.count_cons]
    by_cases h : a = c
    · simp [checkDeref, h]
      omega
    · simp [checkDeref, Function.update_of_ne (Ne.symm h), h]

structure IndexedCheck extends StatsdCheck where
  module : Bytes
  deriving DecidableEq, Repr

abbrev TargetIndex := Bytes → List IndexedCheck

def collectModule (mod : Bytes) : List IndexedCheck → Nat → RefCounts → List StatsdCheck × RefCounts
  | [], _, refs => ([], refs)
  | c :: cs, allocd, refs =>
    if allocd = 0 ∨ c.module ≠ mod then collectModule mod cs allocd refs
    else
      let (found, refs) := collectModule mod cs (allocd - 1) (checkRef refs c.id)
      (c.toStatsdCheck :: found, refs)

def lookupByIpModule (index : TargetIndex) (ip mod : Bytes) (nchecks : Nat) (refs : RefCounts) :
    List StatsdCheck × RefCounts :=
  collectModule mod (index ip) nchecks refs

structure Datagram where
  ip : Bytes
  index : TargetIndex
  payload : Bytes

def maxChecks : Nat := 3

section

variable {δ : Type} (d : StatsdDoubles δ) (mod : Bytes)

def statsdHandleSingleMessage (parent : Option StatsdCheck) (msg : Datagram) (refs : RefCounts) :
    List (StatsdUpdate δ) × RefCounts :=
  let (own, refs) := if msg.ip = [] then ([], refs)
    else lookupByIpModule msg.index msg.ip mod (maxChecks - 1) refs
  let (any, refs) :=
    lookupByIpModule msg.index [48, 46, 48, 46, 48, 46, 48] mod (maxChecks - 1 - own.length) refs
  let checks := own ++ any ++ parent.toList
  if checks = [] then ([], refs)
  else (statsdHandlePayload d checks msg.payload, (checks.map (·.id)).foldl checkDeref refs)

def handleMessages (parent : Option StatsdCheck) :
    List Datagram → RefCounts → List (StatsdUpdate δ) × RefCounts
  | [], refs => ([], refs)
  | msg :: msgs, refs =>
    let (updates, refs) := statsdHandleSingleMessage d mod parent msg refs
    let (more, refs) := handleMessages parent msgs refs
    (updates ++ more, refs)

def receiveLoop (parent : Option StatsdCheck) :
    Nat → List (Option (List Datagram)) → RefCounts → List (StatsdUpdate δ) × RefCounts
  | packetsPerCycle + 1, some msgs :: calls, refs =>
    let (updates, refs) := handleMessages d mod parent msgs refs
    let (more, refs) := receiveLoop parent packetsPerCycle calls refs
    (updates ++ more, refs)
  | _, _, refs => ([], refs)

structure StatsdConfig where
  packetsPerCycle : Int
  primaryActive : Bool

def StatsdConfig.parent (conf : StatsdConfig) (primary : Option StatsdCheck) : Option StatsdCheck :=
  if conf.primaryActive then primary else none

def statsdHandler (conf : StatsdConfig) (primary : Option StatsdCheck) (calls : List (Option (List Datagram)))
    (refs : RefCounts) : List (StatsdUpdate δ) × RefCounts :=
  let parent := conf.parent primary
  let refs := match parent with
    | some check => checkRef refs check.id
    | none => refs
  receiveLoop d mod parent (max conf.packetsPerCycle 1).toNat calls refs

def StatsdConfig.received (conf : StatsdConfig) (calls : List (Option (List Datagram))) : List Datagram :=
  ((calls.take (max conf.packetsPerCycle 1).toNat).takeWhile Option.isSome).flatMap fun msgs => msgs.getD []

theorem collectModule_refs (checks : List IndexedCheck) (allocd : Nat) (refs : RefCounts) (c : Nat) :
    (collectModule mod checks allocd refs).2 c =
      refs c + ((collectModule mod checks allocd refs).1.map (·.id)).count c := by
  induction checks generalizing allocd refs with
  | nil => simp [collectModule]
  | cons a checks ih =>
    rw [collectModule]
    split_ifs with hskip
    · exact ih allocd refs
    · simp only [ih, checkRef_apply, List.map_cons, List.count_cons, beq_iff_eq]
      push_cast
      split_ifs <;> omega

def parentCount (parent : Option StatsdCheck) (c : Nat) : Nat := (parent.toList.map (·.id)).count c

theorem singleMessage_refs (parent : Option StatsdCheck) (msg : Datagram) (refs : RefCounts) (c : Nat) :
    (statsdHandleSingleMessage d mod parent msg refs).2 c = refs c - parentCount parent c := by
  unfold statsdHandleSingleMessage
  generalize hown : (if msg.ip = [] then ([], refs)
    else lookupByIpModule msg.index msg.ip mod (maxChecks - 1) refs) = own
  have hownRefs : own.2 c = refs c + (own.1.map (·.id)).count c := by
    rw [← hown]
    split_ifs with hip
    · simp
    · exact collectModule_refs mod _ _ _ c
  generalize hany : lookupByIpModule msg.index [48, 46, 48, 46, 48, 46, 48] mod
    (maxChecks - 1 - own.1.length) own.2 = any
  have hanyRefs : any.2 c = own.2 c + (any.1.map (·.id)).count c := by
    rw [← hany]
    exact collectModule_refs mod _ _ _ c
  dsimp only
  rw [hany]
  split_ifs with hempty
  · simp only [List.append_eq_nil_iff] at hempty
    obtain ⟨⟨hownNil, hanyNil⟩, hparent⟩ := hempty
    simp [parentCount, hparent, hanyRefs, hownRefs, hownNil, hanyNil]
  · simp only [foldl_checkDeref_apply, List.map_append, List.count_append, hanyRefs, hownRefs, parentCount]
    push_cast
    omega

theorem handleMessages_refs (parent : Option StatsdCheck) (msgs : List Datagram)
    (refs : RefCounts) (c : Nat) :
    (handleMessages d mod parent msgs refs).2 c = refs c - msgs.length * parentCount parent c := by
  induction msgs generalizing refs with
  | nil => simp [handleMessages]
  | cons msg msgs ih =>
    rw [handleMessages]
    dsimp only
    rw [ih, singleMessage_refs, List.length_cons]
    push_cast
    ring

theorem receiveLoop_refs (parent : Option StatsdCheck) (n : Nat) (calls : List (Option (List Datagram)))
    (refs : RefCounts) (c : Nat) :
    (receiveLoop d mod parent n calls refs).2 c = refs c -
      (((calls.take n).takeWhile Option.isSome).flatMap fun msgs => msgs.getD []).length *
        parentCount parent c := by
  induction n generalizing calls refs with
  | zero => simp [receiveLoop]
  | succ n ih =>
    cases calls with
    | nil => simp [receiveLoop]
    | cons call calls =>
      cases call with
      | none => simp [receiveLoop]
      | some msgs =>
        rw [receiveLoop]
        dsimp only
        rw [ih, handleMessages_refs]
        simp
        ring

theorem statsdHandler_refs (conf : StatsdConfig) (primary : Option StatsdCheck)
    (calls : List (Option (List Datagram))) (refs : RefCounts) (c : Nat) :
    (statsdHandler d mod conf primary calls refs).2 c =
      refs c + (1 - (conf.received calls).length) * parentCount (conf.parent primary) c := by
  rw [statsdHandler, receiveLoop_refs, StatsdConfig.received]
  cases conf.parent primary with
  | none => simp [parentCount]
  | some check =>
    simp only [checkRef_apply, parentCount, Option.toList_some, List.map_cons,
      List.map_nil, List.count_singleton,
      beq_iff_eq]
    split_ifs
    · push_cast
      ring
    · simp

/-- The reference counts are as before exactly when there is no active primary check, or one datagram came. -/
theorem handler_neutral_iff (conf : StatsdConfig) (primary : Option StatsdCheck)
    (calls : List (Option (List Datagram))) (refs : RefCounts) :
    (statsdHandler d mod conf primary calls refs).2 = refs ↔
      conf.primaryActive = false ∨ primary = none ∨ (conf.received calls).length = 1 := by
  constructor
  · intro hneutral
    by_contra hnot
    push Not at hnot
    obtain ⟨hactive, hprimary, hcount⟩ := hnot
    obtain ⟨check, rfl⟩ := Option.ne_none_iff_exists'.mp hprimary
    have hparent : conf.parent (some check) = some check := by simp [StatsdConfig.parent, hactive]
    have hrefs := statsdHandler_refs d mod conf (some check) calls refs check.id
    rw [hneutral, hparent] at hrefs
    simp [parentCount] at hrefs
    omega
  · intro hcond
    funext c
    rw [statsdHandler_refs]
    rcases hcond with hactive | rfl | hcount
    · simp [StatsdConfig.parent, hactive, parentCount]
    · simp [StatsdConfig.parent, parentCount]
    · simp [hcount]

end

theorem primary_reference_lost :
    (statsdHandler digitDoubles [] ⟨1, true⟩ (some ⟨7, true⟩) [none] (fun _ => 1)).2 7 = 2 ∧
      (statsdHandler digitDoubles [] ⟨1, true⟩ (some ⟨7, true⟩)
        [some [⟨[], fun _ => [], []⟩, ⟨[], fun _ => [], []⟩]] (fun _ => 1)).2 7 = 0 := by
  decide +kernel

end Reconnoiter
