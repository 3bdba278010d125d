import Mathlib

/-! Writing pieces one behind the other into a buffer. Some pieces are written
only if they do not pass a limit, others without a look at it; once the limit
has been passed, nothing is held back any more. -/

namespace Reconnoiter

inductive Piece where
  /-- Written without a look at the limit. -/
  | plain (size : Nat)
  /-- Written only if it does not pass the limit. -/
  | checked (size : Nat)
  /-- Cannot be written. -/
  | refused
  deriving DecidableEq, Repr

namespace Piece

def size : Piece → Nat
  | plain n => n
  | checked n => n
  | refused => 0

def total (ps : List Piece) : Nat := (ps.map size).sum

def put (limit : Nat) : List Piece → Nat → Nat × Bool
  | [], used => (used, true)
  | plain n :: ps, used => put limit ps (used + n)
  | checked n :: ps, used =>
    if used ≤ limit ∧ limit < used + n then (used, false) else put limit ps (used + n)
  | refused :: _, used => (used, false)

@[simp] theorem total_nil : total [] = 0 := rfl

@[simp] theorem total_cons (p : Piece) (ps : List Piece) : total (p :: ps) = p.size + total ps := by
  simp [total]

theorem total_append (ps qs : List Piece) : total (ps ++ qs) = total ps + total qs := by
  simp [total]

def Stops (limit cap : Nat) (ps : List Piece) : Prop :=
  ∃ pre n post, ps = pre ++ checked n :: post ∧ refused ∉ pre ∧ total pre ≤ limit ∧
    limit < total pre + n ∧ total pre ≤ cap

def Refuses (cap : Nat) (ps : List Piece) : Prop :=
  ∃ pre post, ps = pre ++ refused :: post ∧ refused ∉ pre ∧ total pre ≤ cap

theorem put_fits {limit used : Nat} {pre : List Piece} (rest : List Piece) (hr : refused ∉ pre)
    (hfit : used + total pre ≤ limit) :
    put limit (pre ++ rest) used = put limit rest (used + total pre) := by
  induction pre generalizing used with
  | nil => rfl
  | cons p pre ih =>
    have hp := List.ne_of_not_mem_cons hr
    have hr' := List.not_mem_of_not_mem_cons hr
    rw [total_cons, ← Nat.add_assoc] at hfit ⊢
    have hnext := ih hr' hfit
    cases p with
    | plain n => exact hnext
    | checked n =>
      have hsmall : ¬ (used ≤ limit ∧ limit < used + n) := by
        rintro ⟨-, hlt⟩
        simp only [size] at hfit
        omega
      rw [List.cons_append, put, if_neg hsmall]
      exact hnext
    | refused => exact absurd rfl hp

theorem put_cases (limit : Nat) (ps : List Piece) (used : Nat) :
    (∃ pre n post, ps = pre ++ checked n :: post ∧ refused ∉ pre ∧ used + total pre ≤ limit ∧
      limit < used + total pre + n ∧ put limit ps used = (used + total pre, false)) ∨
    (∃ pre post, ps = pre ++ refused :: post ∧ refused ∉ pre ∧
      put limit ps used = (used + total pre, false)) ∨
    (refused ∉ ps ∧ put limit ps used = (used + total ps, true)) := by
  induction ps generalizing used with
  | nil => exact Or.inr (Or.inr ⟨List.not_mem_nil, rfl⟩)
  | cons p ps ih =>
    -- A piece that is written stands in front of what the rest does.
    have hwritten : p ≠ refused → put limit (p :: ps) used = put limit ps (used + p.size) →
        (∃ pre n post, p :: ps = pre ++ checked n :: post ∧ refused ∉ pre ∧
          used + total pre ≤ limit ∧ limit < used + total pre + n ∧
          put limit (p :: ps) used = (used + total pre, false)) ∨
        (∃ pre post, p :: ps = pre ++ refused :: post ∧ refused ∉ pre ∧
          put limit (p :: ps) used = (used + total pre, false)) ∨
        (refused ∉ p :: ps ∧ put limit (p :: ps) used = (used + total (p :: ps), true)) := by
      intro hp hput
      rw [hput, total_cons, ← Nat.add_assoc]
      rcases ih (used + p.size) with ⟨pre, n, post, rfl, hr, hle, hlt, h⟩ | ⟨pre, post, rfl, hr, h⟩ |
        ⟨hr, h⟩
      · refine Or.inl ⟨p :: pre, n, post, rfl, List.not_mem_cons_of_ne_of_not_mem (Ne.symm hp) hr, ?_⟩
        rw [total_cons, ← Nat.add_assoc]
        exact ⟨hle, hlt, h⟩
      · refine Or.inr (Or.inl ⟨p :: pre, post, rfl, List.not_mem_cons_of_ne_of_not_mem (Ne.symm hp) hr, ?_⟩)
        rw [total_cons, ← Nat.add_assoc]
        exact h
      · exact Or.inr (Or.inr ⟨List.not_mem_cons_of_ne_of_not_mem (Ne.symm hp) hr, h⟩)
    cases p with
    | plain n => exact hwritten (by simp) rfl
    | checked n =>
      by_cases hpass : used ≤ limit ∧ limit < used + n
      · refine Or.inl ⟨[], n, ps, rfl, List.not_mem_nil, hpass.1, hpass.2, ?_⟩
        rw [put, if_pos hpass]
        rfl
      · exact hwritten (by simp) (by rw [put, if_neg hpass]; rfl)
    | refused => exact Or.inr (Or.inl ⟨[], ps, rfl, List.not_mem_nil, rfl⟩)

theorem total_le_of_refused {pre pre' post rest : List Piece}
    (he : pre ++ rest = pre' ++ refused :: post) (hr : refused ∉ pre) :
    total pre ≤ total pre' := by
  rcases List.append_eq_append_iff.mp he with ⟨mid, rfl, -⟩ | ⟨mid, hmid, hrest⟩
  · rw [total_append]
    exact Nat.le_add_right _ _
  · cases mid with
    | nil =>
      rw [List.append_nil] at hmid
      rw [hmid]
    | cons p mid =>
      rw [List.cons_append] at hrest
      obtain ⟨rfl, -⟩ := List.cons.inj hrest
      exact absurd (by rw [hmid]; simp) hr

/-- Writing stays within `cap` bytes, and comes to an amount that is `Good`
when everything was written and `cap` not reached, exactly when it stops early
enough or everything fits. -/
theorem put_bounded_iff (limit cap : Nat) (good : Nat → Prop) (ps : List Piece) :
    ((put limit ps 0).1 ≤ cap ∧
      ((put limit ps 0).2 = true → (put limit ps 0).1 < cap → good (put limit ps 0).1)) ↔
    Stops limit cap ps ∨ Refuses cap ps ∨
      (refused ∉ ps ∧ total ps ≤ cap ∧ (total ps < cap → good (total ps))) := by
  constructor
  · rintro ⟨hcap, hgood⟩
    rcases put_cases limit ps 0 with ⟨pre, n, post, he, hr, hle, hlt, h⟩ | ⟨pre, post, he, hr, h⟩ |
      ⟨hr, h⟩
    · rw [h, Nat.zero_add] at hcap
      rw [Nat.zero_add] at hle hlt
      exact Or.inl ⟨pre, n, post, he, hr, hle, hlt, hcap⟩
    · rw [h, Nat.zero_add] at hcap
      exact Or.inr (Or.inl ⟨pre, post, he, hr, hcap⟩)
    · rw [h, Nat.zero_add] at hcap hgood
      exact Or.inr (Or.inr ⟨hr, hcap, hgood rfl⟩)
  · rintro (⟨pre, n, post, rfl, hr, hle, hlt, hcap⟩ | ⟨pre', post', he', hr', hcap⟩ |
      ⟨hr, hcap, hgood⟩)
    · have hstop : put limit (pre ++ checked n :: post) 0 = (total pre, false) := by
        rw [put_fits _ hr (by omega), put, if_pos ⟨by omega, by omega⟩, Nat.zero_add]
      rw [hstop]
      exact ⟨hcap, by simp⟩
    · rcases put_cases limit ps 0 with ⟨pre, n, post, he, hr, -, -, h⟩ | ⟨pre, post, he, hr, h⟩ |
        ⟨hr, -⟩
      · rw [h, Nat.zero_add]
        exact ⟨(total_le_of_refused (he.symm.trans he') hr).trans hcap, by simp⟩
      · rw [h, Nat.zero_add]
        exact ⟨(total_le_of_refused (he.symm.trans he') hr).trans hcap, by simp⟩
      · exact absurd (by rw [he']; simp) hr
    · rcases put_cases limit ps 0 with ⟨pre, n, post, rfl, -, -, -, h⟩ | ⟨pre, post, rfl, -, -⟩ |
        ⟨-, h⟩
      · rw [h, Nat.zero_add]
        rw [total_append] at hcap
        exact ⟨by omega, by simp⟩
      · exact absurd (by simp) hr
      · rw [h, Nat.zero_add]
        exact ⟨hcap, fun _ => hgood⟩

end Piece

end Reconnoiter
