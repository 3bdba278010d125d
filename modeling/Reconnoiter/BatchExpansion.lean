import Reconnoiter.CheckLog

/-! The lines that a batch of metrics is expanded to, when the metrics have any number of samples. -/

namespace Reconnoiter

variable {D : Type}

def MetricBatch.samples (b : MetricBatch D) : List (Bytes × FbSample D) :=
  b.metrics.flatMap fun m => m.samples.map (m.name, ·)

def OneEach (metrics : List (FbMetric D)) : Prop :=
  ∃ full bare, metrics = full ++ bare ∧
    (∀ m ∈ full, ∃ s, m.samples = [s] ∧ s.value ≠ none ∧ s.value ≠ some .histogram) ∧
      ∀ m ∈ bare, m.samples = []

section Lines

variable {env : BfEnv D}

end Lines

section Slots

variable {env : BfEnv D} {b : MetricBatch D} {i : Nat}

theorem fillSlot_eq (name : Bytes) (samples : List (FbSample D)) (out : List (Option Bytes)) :
    fillSlot env b i name samples out =
      match (samples.filterMap (sampleLine env b name)).getLast? with
      | none => .ok out
      | some line => if i < out.length then .ok (out.set i (some line)) else .error .overrun := by
  induction samples generalizing out with
  | nil => rfl
  | cons s samples ih =>
    rw [fillSlot]
    cases hs : sampleLine env b name s with
    | none =>
      rw [List.filterMap_cons_none hs]
      exact ih out
    | some line =>
      rw [List.filterMap_cons_some hs, List.getLast?_cons]
      dsimp only
      by_cases hi : i < out.length
      · rw [if_pos hi, ih, List.length_set]
        cases (samples.filterMap (sampleLine env b name)).getLast? with
        | none => simp [hi]
        | some last => simp [hi]
      · simp [hi]

end Slots

theorem OneEach.value {b : MetricBatch D} (h : OneEach b.metrics) {x : Bytes × FbSample D}
    (hx : x ∈ b.samples) :
    ∃ v, x.2.value = some v ∧ v ≠ .histogram := by
  obtain ⟨full, bare, hsplit, hfull, hbare⟩ := h
  obtain ⟨m, hm, hx⟩ := List.mem_flatMap.mp hx
  obtain ⟨s, hs, rfl⟩ := List.mem_map.mp hx
  rw [hsplit] at hm
  rcases List.mem_append.mp hm with hm | hm
  · obtain ⟨s', hs', hnone, hhist⟩ := hfull m hm
    rw [hs', List.mem_singleton] at hs
    subst hs
    obtain ⟨v, hv⟩ := Option.ne_none_iff_exists'.mp hnone
    exact ⟨v, hv, fun hc => hhist (by rw [hv, hc])⟩
  · rw [hbare m hm] at hs
    exact absurd hs List.not_mem_nil

end Reconnoiter
