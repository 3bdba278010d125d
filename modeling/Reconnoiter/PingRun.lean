import Reconnoiter.Machine

/-! One run of a ping check: the handler of reply packets and the handler of the timeout, which may run in
different threads. Each step makes at most one access to what they share. Whoever deletes the check's entry
from the table of pings in flight is meant to finish the run. -/

namespace Reconnoiter

structure PingEnv where
  self : Nat
  randomNum : Nat
  icmp4Len : Nat
  icmp6Len : Nat
  payloadLen : Nat

inductive PingFamily
  | v4
  | v6
  deriving DecidableEq, Repr

structure PingPacket where
  family : PingFamily
  inlen : Nat
  iphlen : Nat
  type : Nat
  id : Nat
  addrOfCheck : Nat
  checkid : Nat
  generation : Nat
  checkNo : Nat
  packNo : Nat
  packCnt : Nat
  /-- The time since the payload's own time, in microseconds. -/
  turnaround : Int
  deriving DecidableEq, Repr

def PingEnv.accepts (env : PingEnv) (pkt : PingPacket) : Bool :=
  match pkt.family with
  | .v4 => pkt.inlen == pkt.iphlen + env.icmp4Len + env.payloadLen && pkt.type == 0 &&
      pkt.id &&& 0xff00 == env.self &&& 0xff00
  | .v6 => pkt.inlen == env.icmp6Len + env.payloadLen && pkt.type == 129 &&
      pkt.id &&& 0xff00 == env.self &&& 0xff00

/-- What does not change in a run. `live` is that the check is neither killed nor disabled. -/
structure PingCheck where
  pointer : Nat
  uuid : Nat
  generation : Nat
  closure : Bool
  checkNo : Nat
  expectedCount : Int
  live : Bool
  deriving DecidableEq, Repr

/-- Where the reply handler is with a packet: `found` is that the check is the one looked up by the packet's
id, and `vcheck` that it is the one of the packet's key in the table. -/
inductive ReplyPc
  | idle
  | retrieved (pkt : PingPacket) (found vcheck : Bool)
  | matched (pkt : PingPacket)
  | accepted (pkt : PingPacket)
  | complete
  | firstFinisher
  | ended
  | logged
  | removed
  | leaving
  deriving DecidableEq, Repr

inductive TimeoutPc
  | start
  | logged
  | cleared
  | ended
  | shouldFree
  deriving DecidableEq, Repr

inductive PingTimer
  | pending
  | running (pc : TimeoutPc)
  | gone
  deriving DecidableEq, Repr

structure PingState where
  refs : Int
  inFlight : Bool
  timeoutEvent : Bool
  turnaround : Nat → Int
  logs : Nat
  ends : Nat
  reply : ReplyPc
  timer : PingTimer

inductive PingAction
  | receive (pkt : PingPacket) (found : Bool)
  | reply
  | fire
  | timeout
  deriving DecidableEq, Repr

def PingCheck.passes (c : PingCheck) (timeoutEvent : Bool) (pkt : PingPacket) : Bool :=
  pkt.generation == c.generation % 65536 && c.closure && timeoutEvent && pkt.checkNo == c.checkNo &&
    (pkt.packCnt : Int) == c.expectedCount && decide ((pkt.packNo : Int) < c.expectedCount)

def pingIcmpIsComplete (c : PingCheck) (turnaround : Nat → Int) : Bool :=
  (List.range c.expectedCount.toNat).all fun i => decide (0 ≤ turnaround i)

namespace PingState

def replyStep (c : PingCheck) (s : PingState) : Option PingState :=
  match s.reply with
  | .idle => none
  | .retrieved pkt found vcheck =>
    if found = false then some { s with reply := .idle }
    -- a mismatched check is left with the reference of the lookup
    else if vcheck = false then some { s with refs := s.refs + 1, reply := .idle }
    else some { s with refs := s.refs + 1, reply := .matched pkt }
  | .matched pkt => some { s with reply := if c.passes s.timeoutEvent pkt then .accepted pkt else .leaving }
  | .accepted pkt =>
    let turnaround := Function.update s.turnaround pkt.packNo pkt.turnaround
    some { s with
      turnaround := turnaround
      reply := if pingIcmpIsComplete c turnaround then .complete else .leaving }
  | .complete => some { s with inFlight := false, reply := if s.inFlight then .firstFinisher else .leaving }
  | .firstFinisher => some { s with ends := s.ends + 1, reply := .ended }
  | .ended => some { s with logs := s.logs + 1, reply := .logged }
  | .logged =>
    if s.timer = .pending then some { s with timer := .gone, reply := .removed }
    else some { s with reply := .leaving }
  | .removed => some { s with refs := s.refs - 1, timeoutEvent := false, reply := .leaving }
  | .leaving => some { s with refs := s.refs - 1, reply := .idle }

def timeoutStep (c : PingCheck) (s : PingState) : Option PingState :=
  match s.timer with
  | .running .start =>
    some { s with logs := if c.live then s.logs + 1 else s.logs, timer := .running .logged }
  | .running .logged => some { s with timeoutEvent := false, timer := .running .cleared }
  | .running .cleared => some { s with ends := s.ends + 1, timer := .running .ended }
  | .running .ended =>
    some { s with inFlight := false, timer := if s.inFlight then .running .shouldFree else .gone }
  | .running .shouldFree => some { s with refs := s.refs - 1, timer := .gone }
  | _ => none

def step (env : PingEnv) (c : PingCheck) (s : PingState) : PingAction → Option PingState
  | .receive pkt found =>
    if s.reply ≠ .idle then none
    else if env.accepts pkt = false then some s
    else
      let vcheck := s.inFlight && pkt.addrOfCheck == c.pointer ^^^ env.randomNum && pkt.checkid == c.uuid
      some { s with reply := .retrieved pkt (found && pkt.checkid == c.uuid) vcheck }
  | .reply => s.replyStep c
  | .fire => if s.timer = .pending then some { s with timer := .running .start } else none
  | .timeout => s.timeoutStep c

structure Started (c : PingCheck) (s : PingState) : Prop where
  live : c.live = true
  inFlight : s.inFlight = true
  timer : s.timer = .pending
  timeoutEvent : s.timeoutEvent = true
  reply : s.reply = .idle
  logs : s.logs = 0
  ends : s.ends = 0

def AtRest (s : PingState) : Prop := s.reply = .idle ∧ s.timer = .gone

end PingState

def ReplyPc.won : ReplyPc → Bool
  | .firstFinisher => true
  | .ended => true
  | .logged => true
  | _ => false

def ReplyPc.logsAhead : ReplyPc → Nat
  | .firstFinisher => 1
  | .ended => 1
  | _ => 0

def ReplyPc.endsAhead : ReplyPc → Nat
  | .firstFinisher => 1
  | _ => 0

def ReplyPc.held : ReplyPc → Int
  | .idle => 0
  | .retrieved _ _ _ => 0
  | .removed => 2
  | _ => 1

def PingTimer.logsAhead (won : Bool) : PingTimer → Nat
  | .pending => if won then 0 else 1
  | .running .start => 1
  | _ => 0

def PingTimer.endsAhead (won : Bool) : PingTimer → Nat
  | .pending => if won then 0 else 1
  | .running .start => 1
  | .running .logged => 1
  | .running .cleared => 1
  | _ => 0

def PingTimer.held (inFlight : Bool) : PingTimer → Int
  | .pending => 1
  | .running .shouldFree => 1
  | .running _ => if inFlight then 1 else 0
  | .gone => 0

namespace PingState

def logsDue (s : PingState) : Nat := s.logs + s.reply.logsAhead + s.timer.logsAhead s.reply.won

def endsDue (s : PingState) : Nat := s.ends + s.reply.endsAhead + s.timer.endsAhead s.reply.won

def refsKept (s : PingState) : Int := s.refs - s.reply.held - s.timer.held s.inFlight

structure Sound (s : PingState) : Prop where
  pending : s.timer = .pending → s.reply.won = false → s.inFlight = true
  won : s.reply.won = true → s.inFlight = false
  removed : s.reply = .removed → s.timer = .gone
  deleted : s.timer = .running .shouldFree ∨ s.timer = .gone → s.inFlight = false

structure Orderly (s : PingState) (a : PingAction) : Prop where
  matched : a = .reply → ∀ pkt, s.reply ≠ .retrieved pkt true false
  wins : a = .reply → s.reply = .complete → s.inFlight = true → s.timer = .pending
  fires : a = .fire → s.reply.won = false

variable {env : PingEnv} {c : PingCheck} {s t : PingState} {a : PingAction}

structure Effect (s : PingState) (a : PingAction) (t : PingState) : Prop where
  sound : t.Sound
  orderly : Orderly s a → t.logsDue = s.logsDue ∧ t.endsDue = s.endsDue ∧ t.refsKept = s.refsKept
  disorderly : ¬ Orderly s a → t.refsKept = s.refsKept + 1

theorem effect_receive {pkt : PingPacket} {found : Bool} (hs : s.Sound)
    (h : s.step env c (.receive pkt found) = some t) :
    Effect s (.receive pkt found) t := by
  have horderly : Orderly s (.receive pkt found) :=
    ⟨fun h => PingAction.noConfusion h, fun h => PingAction.noConfusion h, fun h => PingAction.noConfusion h⟩
  rw [step] at h
  split_ifs at h with hidle haccepts
  · obtain rfl := Option.some.inj h
    exact ⟨hs, fun _ => ⟨rfl, rfl, rfl⟩, fun hnot => absurd horderly hnot⟩
  · push Not at hidle
    obtain rfl := Option.some.inj h
    refine ⟨⟨fun htimer _ => hs.pending htimer (by rw [hidle]; rfl), fun hwon => Bool.noConfusion hwon,
      fun hremoved => ReplyPc.noConfusion hremoved, hs.deleted⟩, fun _ => ?_,
        fun hnot => absurd horderly hnot⟩
    simp [logsDue, endsDue, refsKept, hidle, ReplyPc.won, ReplyPc.logsAhead, ReplyPc.endsAhead, ReplyPc.held]

theorem effect_fire (hs : s.Sound) (h : s.step env c .fire = some t) : Effect s .fire t := by
  rw [step] at h
  split_ifs at h with hpending
  obtain rfl := Option.some.inj h
  have hremoved : s.reply ≠ .removed := by
    intro hremoved
    rw [hs.removed hremoved] at hpending
    exact PingTimer.noConfusion hpending
  refine ⟨⟨fun htimer => PingTimer.noConfusion htimer, hs.won, fun hr => absurd hr hremoved, by simp⟩, ?_, ?_⟩
  · intro horderly
    have hwon := horderly.fires rfl
    have hflight := hs.pending hpending hwon
    simp [logsDue, endsDue, refsKept, hpending, hwon, hflight, PingTimer.logsAhead,
      PingTimer.endsAhead, PingTimer.held]
  · intro hnot
    have hwon : s.reply.won = true := by
      by_contra hwon
      exact hnot ⟨fun h => PingAction.noConfusion h, fun h => PingAction.noConfusion h,
        fun _ => by simpa using hwon⟩
    simp [refsKept, hpending, hs.won hwon, PingTimer.held]

theorem Effect.of_orderly (horderly : Orderly s a) (hsound : t.Sound) (hlogs : t.logsDue = s.logsDue)
    (hends : t.endsDue = s.endsDue) (hrefs : t.refsKept = s.refsKept) : Effect s a t :=
  ⟨hsound, fun _ => ⟨hlogs, hends, hrefs⟩, fun hnot => absurd horderly hnot⟩

theorem effect_timeout (hlive : c.live = true) (hs : s.Sound) (h : s.step env c .timeout = some t) :
    Effect s .timeout t := by
  have horderly : Orderly s .timeout :=
    ⟨fun h => PingAction.noConfusion h, fun h => PingAction.noConfusion h, fun h => PingAction.noConfusion h⟩
  cases htimer : s.timer with
  | pending => simp [step, timeoutStep, htimer] at h
  | gone => simp [step, timeoutStep, htimer] at h
  | running pc =>
    have hremoved : s.reply ≠ .removed := by
      intro hremoved
      rw [hs.removed hremoved] at htimer
      exact PingTimer.noConfusion htimer
    cases pc <;> simp only [step, timeoutStep, htimer, Option.some.injEq] at h <;> subst h
    case ended =>
      refine .of_orderly horderly ⟨?_, fun _ => rfl, fun hr => absurd hr hremoved, fun _ => rfl⟩ ?_ ?_ ?_
      · intro hpending
        dsimp only at hpending
        split_ifs at hpending
      all_goals
        cases hflight : s.inFlight <;>
          simp [logsDue, endsDue, refsKept, htimer, hflight, PingTimer.logsAhead,
            PingTimer.endsAhead, PingTimer.held]
    case shouldFree =>
      refine .of_orderly horderly ⟨fun hpending => PingTimer.noConfusion hpending, hs.won,
        fun hr => absurd hr hremoved, fun _ => hs.deleted (Or.inl htimer)⟩ ?_ ?_ ?_ <;>
      simp only [logsDue, endsDue, refsKept, htimer, PingTimer.logsAhead, PingTimer.endsAhead, PingTimer.held]
      omega
    all_goals
      refine .of_orderly horderly ⟨fun hpending => PingTimer.noConfusion hpending, hs.won,
        fun hr => absurd hr hremoved, by simp⟩ ?_ ?_ ?_ <;>
      simp only [logsDue, endsDue, refsKept, htimer, hlive, reduceIte,
        PingTimer.logsAhead, PingTimer.endsAhead,
        PingTimer.held] <;>
      omega

theorem orderly_reply (hmatched : ∀ pkt, s.reply ≠ .retrieved pkt true false) (hwins : s.reply ≠ .complete) :
    Orderly s .reply :=
  ⟨fun _ => hmatched, fun _ hcomplete => absurd hcomplete hwins, fun h => PingAction.noConfusion h⟩

theorem Sound.of_busy (hs : s.Sound) (hreply : s.reply.won = false) (hflight : t.inFlight = s.inFlight)
    (htimer : t.timer = s.timer) (hwon : t.reply.won = false) (hremoved : t.reply ≠ .removed) : t.Sound := by
  refine ⟨fun hpending _ => ?_, fun h => absurd (h.symm.trans hwon) (by decide),
    fun h => absurd h hremoved, ?_⟩
  · rw [hflight]
    exact hs.pending (htimer ▸ hpending) hreply
  · rw [hflight, htimer]
    exact hs.deleted

theorem Effect.of_busy (hs : s.Sound) (horderly : Orderly s .reply) (hreply : s.reply.won = false)
    (hflight : t.inFlight = s.inFlight) (htimer : t.timer = s.timer) (hwon : t.reply.won = false)
    (hremoved : t.reply ≠ .removed) (hlogs : t.logs + t.reply.logsAhead = s.logs + s.reply.logsAhead)
    (hends : t.ends + t.reply.endsAhead = s.ends + s.reply.endsAhead)
    (hrefs : t.refs - t.reply.held = s.refs - s.reply.held) : Effect s .reply t := by
  apply Effect.of_orderly horderly (hs.of_busy hreply hflight htimer hwon hremoved)
  · rw [logsDue, logsDue, hlogs, htimer, hwon, hreply]
  · rw [endsDue, endsDue, hends, htimer, hwon, hreply]
  · rw [refsKept, refsKept, hrefs, htimer, hflight]

theorem effect_complete (hs : s.Sound) (hreply : s.reply = .complete) (h : s.step env c .reply = some t) :
    Effect s .reply t := by
  have hwon : s.reply.won = false := by rw [hreply]; rfl
  simp only [step, replyStep, hreply] at h
  obtain rfl := Option.some.inj h
  cases hflight : s.inFlight with
  | false =>
    have horderly : Orderly s .reply :=
      ⟨by simp [hreply], fun _ _ h => absurd (h.symm.trans hflight) (by decide),
        fun h => PingAction.noConfusion h⟩
    refine Effect.of_busy hs horderly hwon hflight.symm rfl ?_ ?_ ?_ ?_ ?_ <;>
      simp [hreply, ReplyPc.won, ReplyPc.logsAhead, ReplyPc.endsAhead, ReplyPc.held]
  | true =>
    refine ⟨⟨fun _ h => Bool.noConfusion h, fun _ => rfl, fun h => ReplyPc.noConfusion h,
      fun _ => rfl⟩, ?_, ?_⟩
    · intro horderly
      have hpending := horderly.wins rfl hreply hflight
      simp [logsDue, endsDue, refsKept, hreply, hpending, ReplyPc.won, ReplyPc.logsAhead, ReplyPc.endsAhead,
        ReplyPc.held, PingTimer.logsAhead, PingTimer.endsAhead, PingTimer.held]
    · -- the timeout handler is at work and has not deleted the entry
      intro hnot
      have hpending : s.timer ≠ .pending := fun hpending =>
        hnot ⟨by simp [hreply], fun _ _ _ => hpending, fun h => PingAction.noConfusion h⟩
      have hdeleted : ¬ (s.timer = .running .shouldFree ∨ s.timer = .gone) := by
        intro h
        rw [hs.deleted h] at hflight
        exact Bool.noConfusion hflight
      cases htimer : s.timer with
      | pending => exact absurd htimer hpending
      | gone => exact absurd (Or.inr htimer) hdeleted
      | running pc =>
        cases pc with
        | shouldFree => exact absurd (Or.inl htimer) hdeleted
        | _ =>
          simp [refsKept, hreply, htimer, hflight, ReplyPc.held, PingTimer.held]

theorem effect_reply (hs : s.Sound) (h : s.step env c .reply = some t) : Effect s .reply t := by
  have hplain : s.reply ≠ .complete → (∀ pkt, s.reply ≠ .retrieved pkt true false) → Orderly s .reply :=
    fun hwins hmatched => orderly_reply hmatched hwins
  cases hreply : s.reply with
  | idle => simp [step, replyStep, hreply] at h
  | retrieved pkt found vcheck =>
    have hwon : s.reply.won = false := by rw [hreply]; rfl
    simp only [step, replyStep, hreply] at h
    cases found with
    | false =>
      obtain rfl := Option.some.inj h
      refine Effect.of_busy hs (hplain (by simp [hreply]) (by simp [hreply])) hwon rfl rfl ?_ ?_ ?_ ?_ ?_ <;>
        simp [hreply, ReplyPc.won, ReplyPc.logsAhead, ReplyPc.endsAhead, ReplyPc.held]
    | true =>
      cases vcheck with
      | false =>
        obtain rfl := Option.some.inj h
        refine ⟨hs.of_busy hwon rfl rfl rfl (by simp), fun horderly =>
          absurd hreply (horderly.matched rfl pkt),
          fun _ => ?_⟩
        simp only [refsKept, hreply, ReplyPc.held]
        omega
      | true =>
        obtain rfl := Option.some.inj h
        refine Effect.of_busy hs (hplain (by simp [hreply]) (by simp [hreply]))
          hwon rfl rfl ?_ ?_ ?_ ?_ ?_ <;>
          simp [hreply, ReplyPc.won, ReplyPc.logsAhead, ReplyPc.endsAhead, ReplyPc.held]
  | matched pkt =>
    have hwon : s.reply.won = false := by rw [hreply]; rfl
    simp only [step, replyStep, hreply] at h
    obtain rfl := Option.some.inj h
    refine Effect.of_busy hs (hplain (by simp [hreply]) (by simp [hreply])) hwon rfl rfl ?_ ?_ ?_ ?_ ?_ <;>
      (dsimp only; split_ifs) <;>
      simp [hreply, ReplyPc.won, ReplyPc.logsAhead, ReplyPc.endsAhead, ReplyPc.held]
  | accepted pkt =>
    have hwon : s.reply.won = false := by rw [hreply]; rfl
    simp only [step, replyStep, hreply] at h
    obtain rfl := Option.some.inj h
    refine Effect.of_busy hs (hplain (by simp [hreply]) (by simp [hreply])) hwon rfl rfl ?_ ?_ ?_ ?_ ?_ <;>
      (dsimp only; split_ifs) <;>
      simp [hreply, ReplyPc.won, ReplyPc.logsAhead, ReplyPc.endsAhead, ReplyPc.held]
  | complete => exact effect_complete hs hreply h
  | firstFinisher =>
    simp only [step, replyStep, hreply] at h
    obtain rfl := Option.some.inj h
    have hwon : s.reply.won = true := by rw [hreply]; rfl
    refine .of_orderly (hplain (by simp [hreply]) (by simp [hreply]))
      ⟨fun _ h => Bool.noConfusion h, fun _ => hs.won hwon, fun h => ReplyPc.noConfusion h,
        hs.deleted⟩ ?_ ?_ ?_ <;>
      simp [logsDue, endsDue, refsKept, hreply, ReplyPc.won, ReplyPc.logsAhead,
        ReplyPc.endsAhead, ReplyPc.held]
  | ended =>
    simp only [step, replyStep, hreply] at h
    obtain rfl := Option.some.inj h
    have hwon : s.reply.won = true := by rw [hreply]; rfl
    refine .of_orderly (hplain (by simp [hreply]) (by simp [hreply]))
      ⟨fun _ h => Bool.noConfusion h, fun _ => hs.won hwon, fun h => ReplyPc.noConfusion h,
        hs.deleted⟩ ?_ ?_ ?_ <;>
      simp [logsDue, endsDue, refsKept, hreply, ReplyPc.won, ReplyPc.logsAhead,
        ReplyPc.endsAhead, ReplyPc.held]
  | logged =>
    have hflight : s.inFlight = false := hs.won (by rw [hreply]; rfl)
    have horderly := hplain (by simp [hreply]) (by simp [hreply])
    simp only [step, replyStep, hreply] at h
    split_ifs at h with hpending
    · obtain rfl := Option.some.inj h
      refine .of_orderly horderly ⟨fun h => PingTimer.noConfusion h, fun h =>
        Bool.noConfusion h, fun _ => rfl,
        fun _ => hflight⟩ ?_ ?_ ?_ <;>
        simp [logsDue, endsDue, refsKept, hreply, hpending, ReplyPc.won, ReplyPc.logsAhead, ReplyPc.endsAhead,
          ReplyPc.held, PingTimer.logsAhead, PingTimer.endsAhead, PingTimer.held]
      omega
    · obtain rfl := Option.some.inj h
      refine .of_orderly horderly ⟨fun h => absurd h hpending, fun h => Bool.noConfusion h,
        fun h => ReplyPc.noConfusion h, hs.deleted⟩ ?_ ?_ ?_
      all_goals
        cases htimer : s.timer with
        | pending => exact absurd htimer hpending
        | gone =>
          simp [logsDue, endsDue, refsKept, hreply, htimer, ReplyPc.logsAhead,
            ReplyPc.endsAhead, ReplyPc.held,
            PingTimer.logsAhead, PingTimer.endsAhead]
        | running pc =>
          cases pc <;>
            simp [logsDue, endsDue, refsKept, hreply, htimer, ReplyPc.logsAhead,
              ReplyPc.endsAhead, ReplyPc.held,
              PingTimer.logsAhead, PingTimer.endsAhead]
  | removed =>
    have hgone := hs.removed hreply
    simp only [step, replyStep, hreply] at h
    obtain rfl := Option.some.inj h
    refine .of_orderly (hplain (by simp [hreply]) (by simp [hreply]))
      ⟨fun h => absurd (hgone.symm.trans h) (by simp), fun h => Bool.noConfusion h,
        fun h => ReplyPc.noConfusion h,
        hs.deleted⟩ ?_ ?_ ?_ <;>
      simp [logsDue, endsDue, refsKept, hreply, hgone, ReplyPc.logsAhead, ReplyPc.endsAhead, ReplyPc.held,
        PingTimer.logsAhead, PingTimer.endsAhead, PingTimer.held]
    omega
  | leaving =>
    have hwon : s.reply.won = false := by rw [hreply]; rfl
    simp only [step, replyStep, hreply] at h
    obtain rfl := Option.some.inj h
    refine Effect.of_busy hs (hplain (by simp [hreply]) (by simp [hreply])) hwon rfl rfl ?_ ?_ ?_ ?_ ?_ <;>
      simp [hreply, ReplyPc.won, ReplyPc.logsAhead, ReplyPc.endsAhead, ReplyPc.held]

theorem effect_step (hlive : c.live = true) (hs : s.Sound) (h : s.step env c a = some t) : Effect s a t := by
  cases a with
  | receive pkt found => exact effect_receive hs h
  | reply => exact effect_reply hs h
  | fire => exact effect_fire hs h
  | timeout => exact effect_timeout hlive hs h

section

variable {as : List PingAction}

theorem orderly_run (hlive : c.live = true) (h : Run (step env c) Orderly s as t) (hs : s.Sound) :
    t.logsDue = s.logsDue ∧ t.endsDue = s.endsDue ∧ t.refsKept = s.refsKept := by
  induction h with
  | nil => exact ⟨rfl, rfl, rfl⟩
  | cons hok hstep _ ih =>
    have heffect := effect_step hlive hs hstep
    obtain ⟨hlogs, hends, hrefs⟩ := heffect.orderly hok
    obtain ⟨hlogs', hends', hrefs'⟩ := ih heffect.sound
    exact ⟨hlogs'.trans hlogs, hends'.trans hends, hrefs'.trans hrefs⟩

theorem refsKept_run (hlive : c.live = true) (h : Run (step env c) (fun _ _ => True) s as t) (hs : s.Sound) :
    s.refsKept ≤ t.refsKept ∧ (t.refsKept = s.refsKept → Run (step env c) Orderly s as t) := by
  induction h with
  | nil => exact ⟨le_rfl, fun _ => .nil _⟩
  | @cons s u t a as _ hstep _ ih =>
    have heffect := effect_step hlive hs hstep
    obtain ⟨hle, hrest⟩ := ih heffect.sound
    by_cases horderly : Orderly s a
    · have hrefs := (heffect.orderly horderly).2.2
      refine ⟨by omega, fun heq => .cons horderly hstep (hrest (by omega))⟩
    · have hrefs := heffect.disorderly horderly
      refine ⟨by omega, fun heq => ?_⟩
      omega

theorem Started.sound (h : Started c s) : s.Sound := by
  refine ⟨fun _ _ => h.inFlight, ?_, ?_, ?_⟩ <;> simp [h.reply, h.timer, ReplyPc.won]

theorem Started.due (h : Started c s) : s.logsDue = 1 ∧ s.endsDue = 1 ∧ s.refsKept = s.refs - 1 := by
  simp [logsDue, endsDue, refsKept, h.reply, h.timer, h.logs, h.ends, ReplyPc.won, ReplyPc.logsAhead,
    ReplyPc.endsAhead, ReplyPc.held, PingTimer.logsAhead, PingTimer.endsAhead, PingTimer.held]

theorem refs_of_idle (h : s.reply = .idle) : s.refs = s.refsKept + s.timer.held s.inFlight := by
  simp [refsKept, h, ReplyPc.held]

end

structure ReportsOnce (env : PingEnv) (c : PingCheck) (s : PingState)
    (as : List PingAction) (t : PingState) : Prop where
  logs : t.logs = 1
  ends : t.ends = 1
  packets : ∀ as₁ as₂ u, as = as₁ ++ as₂ → Run (step env c) (fun _ _ => True) s as₁ u → u.reply = .idle →
    u.refs = s.refs - 1 + u.timer.held u.inFlight

end PingState

open PingState in
/-- A run that has come to rest was reported once and ended once, with every packet leaving the references as
they were, exactly when every packet's check was the one of its key, the reply handler won only while the
timeout was waiting, and the timeout did not come while the reply handler had won. -/
theorem ping_reports_once_iff {env : PingEnv} {c : PingCheck} {s t : PingState} {as : List PingAction}
    (hs : Started c s) (hrun : Run (step env c) (fun _ _ => True) s as t) (hrest : t.AtRest) :
    ReportsOnce env c s as t ↔ Run (step env c) Orderly s as t := by
  obtain ⟨hlogs₀, hends₀, hrefs₀⟩ := hs.due
  constructor
  · intro h
    have hrefs := h.packets as [] t (List.append_nil as).symm hrun hrest.1
    rw [refs_of_idle hrest.1, hrest.2] at hrefs
    apply (refsKept_run hs.live hrun hs.sound).2
    rw [hrefs₀]
    omega
  · intro horderly
    obtain ⟨hlogs, hends, -⟩ := orderly_run hs.live horderly hs.sound
    have hlast : t.logsDue = t.logs ∧ t.endsDue = t.ends := by
      simp [logsDue, endsDue, hrest.1, hrest.2, ReplyPc.logsAhead, ReplyPc.endsAhead, PingTimer.logsAhead,
        PingTimer.endsAhead]
    refine ⟨by omega, by omega, ?_⟩
    rintro as₁ as₂ u rfl hprefix hidle
    obtain ⟨v, hfirst, -⟩ := horderly.split
    obtain rfl := hfirst.unique hprefix
    rw [refs_of_idle hidle, (orderly_run hs.live hfirst hs.sound).2.2, hrefs₀]

def pingEnv : PingEnv := ⟨0x1200, 0, 28, 8, 42⟩

def pingOnce : PingCheck := ⟨7, 1, 0, true, 1, 1, true⟩

def pingStarted : PingState := ⟨2, true, true, fun _ => -1000000, 0, 0, .idle, .pending⟩

theorem ping_timed_out : PingState.ReportsOnce pingEnv pingOnce pingStarted
    [.fire, .timeout, .timeout, .timeout, .timeout, .timeout]
    ⟨1, false, false, fun _ => -1000000, 1, 1, .idle, .gone⟩ := by
  have hstarted : pingStarted.Started pingOnce := ⟨rfl, rfl, rfl, rfl, rfl, rfl, rfl⟩
  have horderly : ∀ s : PingState, s.reply = .idle → ∀ a, PingState.Orderly s a := fun s hs a =>
    ⟨fun _ pkt => by simp [hs], fun _ h => absurd (hs.symm.trans h) (by simp), fun _ => by rw [hs]; rfl⟩
  refine (ping_reports_once_iff hstarted (Run.cons trivial rfl (.cons trivial rfl (.cons trivial rfl
    (.cons trivial rfl (.cons trivial rfl (.cons trivial rfl (.nil _))))))) ⟨rfl, rfl⟩).mpr ?_
  exact .cons (horderly _ rfl _) rfl (.cons (horderly _ rfl _) rfl (.cons (horderly _ rfl _) rfl
    (.cons (horderly _ rfl _) rfl (.cons (horderly _ rfl _) rfl (.cons (horderly _ rfl _) rfl (.nil _))))))

def pingReply : PingPacket := ⟨.v4, 90, 20, 0, 0x1200, 7, 1, 0, 1, 0, 1, 5000⟩

theorem ping_reply_twice :
    (Run.execute (PingState.step pingEnv pingOnce) (fun _ _ => true) pingStarted
        ([.receive pingReply true] ++ List.replicate 9 .reply ++ [.receive pingReply true, .reply])).map
        (fun t => (t.logs, t.ends, t.refs, t.reply, t.timer)) = some (1, 1, 2, .idle, .gone) ∧
      (Run.execute (PingState.step pingEnv pingOnce) (fun _ _ => true) pingStarted
        ([.receive pingReply true] ++ List.replicate 6 .reply ++ [.fire] ++ List.replicate 4 .timeout ++
          List.replicate 2 .reply)).map
        (fun t => (t.logs, t.ends, t.refs, t.reply, t.timer)) = some (2, 2, 2, .idle, .gone) := by
  decide

open PingState in
/-- Whatever packets come and however the handlers interleave, the check never has fewer references than
it had without the run and than the handlers still hold. -/
theorem references_never_short {env : PingEnv} {c : PingCheck} {s t : PingState} {as : List PingAction}
    (hs : Started c s) (hrun : Run (step env c) (fun _ _ => True) s as t) :
    s.refs - 1 + t.reply.held + t.timer.held t.inFlight ≤ t.refs := by
  have hkept := (refsKept_run hs.live hrun hs.sound).1
  rw [hs.due.2.2, refsKept] at hkept
  omega

def pingWonLate : PingState :=
  (Run.execute (PingState.step pingEnv pingOnce) (fun _ _ => true) pingStarted
    ([.receive pingReply true] ++ List.replicate 6 .reply ++ [.fire])).get (by decide +kernel)

theorem references_never_short_won : 1 + pingWonLate.reply.held ≤ pingWonLate.refs := by
  have hrun : Run (PingState.step pingEnv pingOnce) (fun _ _ => True) pingStarted
      ([.receive pingReply true] ++ List.replicate 6 .reply ++ [.fire]) pingWonLate :=
    Run.of_execute (fun _ _ _ => trivial) (Option.some_get _).symm
  have hbound := references_never_short ⟨rfl, rfl, rfl, rfl, rfl, rfl, rfl⟩ hrun
  have hheld : pingWonLate.timer.held pingWonLate.inFlight = 0 := by decide +kernel
  rw [hheld, add_zero] at hbound
  exact hbound

end Reconnoiter
