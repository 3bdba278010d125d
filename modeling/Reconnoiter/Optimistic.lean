import Reconnoiter.Machine

/-! Optimistic updates: a call reads a value and its version and computes a new value, which it writes
if the version is still the same; or else it starts over. -/

namespace Reconnoiter

variable {V Op : Type*}

inductive OptimisticPc (V : Type*) where
  | reading
  | writing (version : Nat) (v : V)
  | returned

/-- The calls that have taken effect are kept for the statements, in that order. -/
structure Optimistic (V Op : Type*) where
  version : Nat
  value : V
  calls : Nat → Option (Op × OptimisticPc V)
  effects : List (Nat × Op)

inductive OptimisticAct (Op : Type*) where
  | begin (call : Nat) (op : Op)
  | advance (call : Nat)

namespace Optimistic

def start (init : V) : Optimistic V Op := ⟨0, init, fun _ => none, []⟩

def goto (s : Optimistic V Op) (c : Nat) (op : Op) (pc : OptimisticPc V) : Optimistic V Op :=
  { s with calls := Function.update s.calls c (some (op, pc)) }

def finish (s : Optimistic V Op) (c : Nat) (op : Op) : Optimistic V Op :=
  { s.goto c op .returned with effects := s.effects ++ [(c, op)] }

/-- A call that is `idle` on the value it reads writes nothing. -/
def step (apply : Op → V → V) (idle : Op → V → Bool) (s : Optimistic V Op) :
    OptimisticAct Op → Option (Optimistic V Op)
  | .begin c op => if (s.calls c).isNone then some (s.goto c op .reading) else none
  | .advance c =>
    match s.calls c with
    | some (op, .reading) =>
      if idle op s.value then some (s.finish c op) else some (s.goto c op (.writing s.version s.value))
    | some (op, .writing version v) =>
      if version = s.version then some { s.finish c op with version := s.version + 1, value := apply op v }
      else some (s.goto c op .reading)
    | _ => none

structure Inv (apply : Op → V → V) (init : V) (s : Optimistic V Op) : Prop where
  value : s.value = s.effects.foldl (fun v e => apply e.2 v) init
  known : ∀ c op version v, s.calls c = some (op, .writing version v) →
    version ≤ s.version ∧ (version = s.version → v = s.value)
  effects : ∀ c op, (c, op) ∈ s.effects ↔ s.calls c = some (op, .returned)
  once : (s.effects.map Prod.fst).Nodup

variable {apply : Op → V → V} {idle : Op → V → Bool} {init : V} {s t : Optimistic V Op} {c : Nat} {op : Op}

theorem Inv.goto (h : s.Inv apply init) (hc : ∀ op, s.calls c ≠ some (op, .returned)) {pc : OptimisticPc V}
    (hpc : pc = .reading ∨ pc = .writing s.version s.value) : (s.goto c op pc).Inv apply init := by
  refine ⟨h.value, fun c' op' version v hc' => ?_, fun c' op' => (h.effects c' op').trans ?_, h.once⟩
  · by_cases heq : c' = c
    · subst heq
      simp only [Optimistic.goto, Function.update_self] at hc'
      rcases hpc with rfl | rfl <;> cases hc'
      exact ⟨le_rfl, fun _ => rfl⟩
    · exact h.known c' op' version v ((Function.update_of_ne heq _ _).symm.trans hc')
  · by_cases heq : c' = c
    · subst heq
      simp only [Optimistic.goto, Function.update_self]
      refine ⟨fun hret => absurd hret (hc op'), ?_⟩
      rintro ⟨⟩
      rcases hpc with hpc | hpc <;> cases hpc
    · simp only [Optimistic.goto, Function.update_of_ne heq]

theorem Inv.finish (h : s.Inv apply init) (hc : ∀ op, s.calls c ≠ some (op, .returned))
    {version : Nat} {v : V}
    (hv : v = apply op s.value) (hversion : s.version < version ∨ version = s.version ∧ v = s.value) :
    Inv apply init { s.finish c op with version := version, value := v } := by
  refine ⟨?_, fun c' op' version' v' hc' => ?_, fun c' op' => ?_, ?_⟩
  · dsimp only [Optimistic.finish]
    rw [List.foldl_append, ← h.value, hv]
    rfl
  · by_cases heq : c' = c
    · subst heq
      cases (Function.update_self ..).symm.trans hc'
    · obtain ⟨hle, hsame⟩ := h.known c' op' version' v' ((Function.update_of_ne heq _ _).symm.trans hc')
      rcases hversion with hlt | ⟨rfl, rfl⟩
      · exact ⟨hle.trans hlt.le, fun heq => absurd hle (Nat.not_le.mpr (lt_of_lt_of_eq hlt heq.symm))⟩
      · exact ⟨hle, hsame⟩
  · simp only [Optimistic.finish, Optimistic.goto, List.mem_append, List.mem_singleton,
      Prod.mk.injEq, h.effects]
    by_cases heq : c' = c
    · subst heq
      simp [hc, eq_comm]
    · simp [heq]
  · dsimp only [Optimistic.finish]
    rw [List.map_append]
    refine h.once.append (List.nodup_singleton _) (List.disjoint_singleton.mpr fun hmem => ?_)
    obtain ⟨⟨c', op'⟩, heffect, rfl⟩ := List.mem_map.mp hmem
    exact hc op' ((h.effects _ _).mp heffect)

theorem Inv.step (hidle : ∀ op v, idle op v = true → apply op v = v) {a : OptimisticAct Op}
    (h : s.Inv apply init) (hstep : s.step apply idle a = some t) : t.Inv apply init := by
  cases a with
  | begin c op =>
    simp only [Optimistic.step] at hstep
    split_ifs at hstep with hc
    cases hstep
    exact h.goto (fun _ hret => by simp [hret] at hc) (.inl rfl)
  | advance c =>
    simp only [Optimistic.step] at hstep
    split at hstep
    · next op hc =>
      have hnot : ∀ op, s.calls c ≠ some (op, .returned) := fun _ hret => by cases hc.symm.trans hret
      split_ifs at hstep with hi
      · cases hstep
        exact h.finish hnot (hidle op _ hi).symm (.inr ⟨rfl, rfl⟩)
      · cases hstep
        exact h.goto hnot (.inr rfl)
    · next op version v hc =>
      have hnot : ∀ op, s.calls c ≠ some (op, .returned) := fun _ hret => by cases hc.symm.trans hret
      split_ifs at hstep with hversion
      · cases hstep
        have hv := (h.known c op version v hc).2 hversion
        exact h.finish hnot (by rw [hv]) (.inl (Nat.lt_succ_self _))
      · cases hstep
        exact h.goto hnot (.inl rfl)
    · cases hstep

theorem inv_of_run (hidle : ∀ op v, idle op v = true → apply op v = v) {acts : List (OptimisticAct Op)}
    (hrun : Run (Optimistic.step apply idle) (fun _ _ => True) (start init) acts s) : s.Inv apply init := by
  refine hrun.invariant (fun _ _ _ hi _ hstep => hi.step hidle hstep) ⟨rfl, ?_, ?_, List.nodup_nil⟩
  · intro c op version v hc
    cases hc
  · intro c op
    simp [start]

end Optimistic

end Reconnoiter
