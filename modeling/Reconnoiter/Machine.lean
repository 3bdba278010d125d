import Mathlib

/-! Runs of a machine: a partial step function on states and actions, and a
condition that every step of a run has to meet. -/

namespace Reconnoiter

variable {σ α : Type*}

inductive Run (step : σ → α → Option σ) (ok : σ → α → Prop) : σ → List α → σ → Prop where
  | nil (s : σ) : Run step ok s [] s
  | cons {s t u : σ} {a : α} {as : List α} (hok : ok s a) (hstep : step s a = some t)
      (hrest : Run step ok t as u) : Run step ok s (a :: as) u

namespace Run

variable {step : σ → α → Option σ} {ok : σ → α → Prop} {s t u : σ} {as bs : List α}

theorem invariant {I : σ → Prop} (hI : ∀ s a t, I s → ok s a → step s a = some t → I t)
    (h : Run step ok s as t) (hs : I s) : I t := by
  induction h with
  | nil => exact hs
  | cons hok hstep _ ih => exact ih (hI _ _ _ hs hok hstep)

theorem split (h : Run step ok s (as ++ bs) u) : ∃ t, Run step ok s as t ∧ Run step ok t bs u := by
  induction as generalizing s with
  | nil => exact ⟨s, .nil s, h⟩
  | cons a as ih =>
    cases h with
    | cons hok hstep hrest =>
      obtain ⟨t, hfirst, hsecond⟩ := ih hrest
      exact ⟨t, .cons hok hstep hfirst, hsecond⟩

theorem unique {ok' : σ → α → Prop} (h : Run step ok s as t) (h' : Run step ok' s as u) : t = u := by
  induction h with
  | nil =>
    cases h'
    rfl
  | cons _ hstep _ ih =>
    cases h' with
    | cons _ hstep' hrest' =>
      obtain rfl := Option.some.inj (hstep.symm.trans hstep')
      exact ih hrest'

theorem restrict {P : α → Prop} (h : Run step ok s as t) (hP : ∀ a ∈ as, P a) :
    Run step (fun s a => ok s a ∧ P a) s as t := by
  induction h with
  | nil => exact .nil _
  | @cons _ _ _ a _ hok hstep _ ih =>
    exact .cons ⟨hok, hP a (by simp)⟩ hstep (ih fun b hb => hP b (by simp [hb]))

theorem mono {ok' : σ → α → Prop} (hok : ∀ s a, ok s a → ok' s a) (h : Run step ok s as t) :
    Run step ok' s as t := by
  induction h with
  | nil => exact .nil _
  | cons h hstep _ ih => exact .cons (hok _ _ h) hstep ih

def execute (step : σ → α → Option σ) (test : σ → α → Bool) (s : σ) (as : List α) : Option σ :=
  as.foldlM (fun s a => if test s a then step s a else none) s

theorem of_execute {test : σ → α → Bool} (htest : ∀ s a, test s a = true → ok s a)
    (h : execute step test s as = some t) : Run step ok s as t := by
  induction as generalizing s with
  | nil =>
    obtain rfl := Option.some.inj h
    exact .nil _
  | cons a as ih =>
    rw [execute, List.foldlM_cons] at h
    obtain ⟨r, hr, hrest⟩ := Option.bind_eq_some_iff.mp h
    split_ifs at hr with hok
    exact .cons (htest s a hok) hr (ih hrest)

end Run

structure Execution (step : σ → α → Option σ) where
  state : ℕ → σ
  act : ℕ → α
  next : ∀ t, step (state t) (act t) = some (state (t + 1))

namespace Execution

variable {step : σ → α → Option σ} (e : Execution step)

theorem invariant {I : σ → Prop} (hI : ∀ s a s', I s → step s a = some s' → I s') {t u : ℕ} (htu : t ≤ u)
    (ht : I (e.state t)) : I (e.state u) := by
  induction htu with
  | refl => exact ht
  | step _ ih => exact hI _ _ _ ih (e.next _)

/-- Progress: each step keeps `P` without raising the rank, or reaches `Q`, and the helpful actions,
which are taken again and again while `P` holds, lower the rank. -/
theorem eventually (P Q : σ → Prop) (rank : σ → ℕ) (helpful : α → Prop)
    (hstep : ∀ s a s', P s → step s a = some s' →
      Q s' ∨ P s' ∧ rank s' ≤ rank s ∧ (helpful a → rank s' < rank s))
    (hfair : ∀ t, P (e.state t) → ∃ u ≥ t, helpful (e.act u)) {t : ℕ} (ht : P (e.state t)) :
    ∃ u ≥ t, Q (e.state u) := by
  induction hrank : rank (e.state t) using Nat.strong_induction_on generalizing t with
  | _ r ih =>
    subst hrank
    obtain ⟨u, htu, hact⟩ := hfair t ht
    -- up to the helpful action at `u`, either `Q` was reached or the rank has not risen
    have hkept : ∀ v, t ≤ v → (∃ w ≥ t, Q (e.state w)) ∨ P (e.state v) ∧
      rank (e.state v) ≤ rank (e.state t) := by
      intro v htv
      induction htv with
      | refl => exact .inr ⟨ht, le_rfl⟩
      | @step v htv ihv =>
        rcases ihv with hq | ⟨hp, hle⟩
        · exact .inl hq
        · rcases hstep _ _ _ hp (e.next v) with hq | ⟨hp', hle', -⟩
          · exact .inl ⟨v + 1, Nat.le_succ_of_le htv, hq⟩
          · exact .inr ⟨hp', hle'.trans hle⟩
    rcases hkept u htu with hq | ⟨hp, hle⟩
    · exact hq
    · rcases hstep _ _ _ hp (e.next u) with hq | ⟨hp', -, hlt⟩
      · exact ⟨u + 1, Nat.le_succ_of_le htu, hq⟩
      · obtain ⟨w, huw, hq⟩ := ih _ ((hlt hact).trans_le hle) hp' rfl
        exact ⟨w, by omega, hq⟩

end Execution

end Reconnoiter
