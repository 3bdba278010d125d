import Reconnoiter.Bytes
import Reconnoiter.SortDedup

/-! Histograms collected from prometheus buckets: the buckets tracked for one
time and name are sorted, deduplicated and turned from cumulative to plain
counts in place. -/

namespace Reconnoiter

structure HistBin (α : Type*) where
  lower : α
  upper : α
  count : UInt64
  deriving Repr

section

variable {α : Type*} [LinearOrder α] [Zero α] (lowest : α)

def undoCumulative (prev : HistBin α) : List (HistBin α) → List (HistBin α)
  | [] => []
  | x :: l =>
    let y : HistBin α := { x with lower := prev.upper, count := x.count - prev.count }
    y :: undoCumulative y l

def convertBins : List (HistBin α) → List (HistBin α)
  | [] => []
  | x :: l =>
    let y : HistBin α := { x with lower := if x.upper ≤ 0 then lowest else 0 }
    y :: undoCumulative y l

def sortAndDedupeHistogram (q : QSort (HistBin.upper (α := α))) (bins : List (HistBin α)) :
    List (HistBin α) :=
  convertBins lowest (sortDedup q bins)

end

section

variable {α : Type*}

theorem undoCumulative_uppers (prev : HistBin α) (l : List (HistBin α)) :
    (undoCumulative prev l).map HistBin.upper = l.map HistBin.upper := by
  induction l generalizing prev with
  | nil => rfl
  | cons x l ih => simp [undoCumulative, ih]

theorem undoCumulative_lowers (prev : HistBin α) (l : List (HistBin α)) :
    (prev :: undoCumulative prev l).IsChain (fun a b => b.lower = a.upper) := by
  induction l generalizing prev with
  | nil => exact List.isChain_singleton prev
  | cons x l ih => exact List.isChain_cons_cons.mpr ⟨rfl, ih _⟩

def increments (prev : Int) : List Int → List Int
  | [] => []
  | c :: l => (c - prev) :: increments c l

theorem sum_increments (prev : Int) (l : List Int) :
    (increments prev l).sum = (prev :: l).getLast (by simp) - prev := by
  induction l generalizing prev with
  | nil => simp [increments]
  | cons c l ih =>
    rw [increments, List.sum_cons, ih, List.getLast_cons (by simp : c :: l ≠ [])]
    omega

def HistBin.amount (x : HistBin α) : Int := x.count.toNat

theorem toNat_sub_count {c p : UInt64} (h : p.toNat ≤ c.toNat) :
    ((c - p).toNat : Int) = c.toNat - p.toNat := by
  rw [UInt64.toNat_sub_of_le _ _ (UInt64.le_iff_toNat_le.mpr h)]
  omega

theorem sub_count_eq_self_iff {c p : UInt64} (h : p.toNat ≤ c.toNat) : c - p = c ↔ p = 0 := by
  have hs := toNat_sub_count h
  constructor
  · intro he
    rw [he] at hs
    exact UInt64.toNat_inj.mp (by simp; omega)
  · rintro rfl
    simp

theorem dropLast_dropLast_cons_cons {γ : Type*} (a b : γ) (l : List γ) :
    (a :: b :: l).dropLast.dropLast = if l = [] then [] else a :: (b :: l).dropLast.dropLast := by
  cases l with
  | nil => rfl
  | cons c l => rfl

theorem undoCumulative_counts_iff (prev orig : HistBin α) (l : List (HistBin α))
    (hprev : prev.count.toNat ≤ orig.count.toNat)
    (hmono : (orig :: l).Pairwise (fun a b => a.count.toNat ≤ b.count.toNat)) :
    (undoCumulative prev l).map HistBin.amount = increments orig.amount (l.map HistBin.amount) ↔
      (l ≠ [] → prev.count = orig.count) ∧ ∀ x ∈ (orig :: l).dropLast.dropLast, x.count = 0 := by
  induction l generalizing prev orig with
  | nil => simp [undoCumulative, increments]
  | cons c l ih =>
    have hm := List.pairwise_cons.mp hmono
    have hoc := hm.1 c List.mem_cons_self
    have hpc : prev.count.toNat ≤ c.count.toNat := hprev.trans hoc
    have hsub := toNat_sub_count hpc
    have hi := ih { c with lower := prev.upper, count := c.count - prev.count } c
      (by simp only; omega) hm.2
    have hhead : ((c.count - prev.count).toNat : Int) = c.amount - orig.amount ↔
        prev.count = orig.count := by
      rw [hsub, HistBin.amount, HistBin.amount, ← UInt64.toNat_inj]
      omega
    simp only [undoCumulative, increments, List.map_cons, List.cons.injEq]
    rw [hi]
    simp only [HistBin.amount] at hhead ⊢
    rw [hhead, sub_count_eq_self_iff hpc, dropLast_dropLast_cons_cons]
    by_cases hl : l = []
    · simp [hl]
    · simp only [hl, ne_eq, not_false_eq_true, forall_true_left, if_false, List.forall_mem_cons,
        reduceCtorEq]
      constructor
      · rintro ⟨he, hz, hx⟩
        exact ⟨he, he ▸ hz, hx⟩
      · rintro ⟨he, hz, hx⟩
        exact ⟨he, he.trans hz, hx⟩

variable [LinearOrder α]

/-- What the conversion is for: bins that abut, in strictly increasing order,
each counting what lies in it. -/
structure CumulativeUndone (remaining out : List (HistBin α)) : Prop where
  increasing : out.Pairwise (fun a b => a.upper < b.upper)
  abutting : out.IsChain (fun a b => b.lower = a.upper)
  uppers : out.map HistBin.upper = remaining.map HistBin.upper
  counts : out.map HistBin.amount = increments 0 (remaining.map HistBin.amount)
  total : (out.map HistBin.amount).sum = (0 :: remaining.map HistBin.amount).getLast (by simp)

theorem sortDedup_counts_mono (q : QSort (HistBin.upper (α := α))) {bins : List (HistBin α)}
    (hmono : ∀ x ∈ bins, ∀ y ∈ bins, x.upper < y.upper → x.count.toNat ≤ y.count.toNat) :
    (sortDedup q bins).Pairwise (fun a b => a.count.toNat ≤ b.count.toNat) := by
  have hsub := (sortDedup_subperm q bins).subset
  refine (sortDedup_strict q bins).imp_of_mem ?_
  intro a b ha hb hlt
  exact hmono a (hsub ha) b (hsub hb) hlt

variable [Zero α] {lowest : α}

variable (lowest) in
theorem convertBins_uppers (l : List (HistBin α)) :
    (convertBins lowest l).map HistBin.upper = l.map HistBin.upper := by
  cases l with
  | nil => rfl
  | cons x l => simp [convertBins, undoCumulative_uppers]

theorem convertBins_lowers (l : List (HistBin α)) :
    (convertBins lowest l).IsChain (fun a b => b.lower = a.upper) := by
  cases l with
  | nil => exact List.isChain_nil
  | cons x l => exact undoCumulative_lowers _ l

variable (lowest) in
theorem convertBins_counts_iff {l : List (HistBin α)}
    (hmono : l.Pairwise (fun a b => a.count.toNat ≤ b.count.toNat)) :
    (convertBins lowest l).map HistBin.amount = increments 0 (l.map HistBin.amount) ↔
      ∀ x ∈ l.dropLast.dropLast, x.count = 0 := by
  cases l with
  | nil => simp [convertBins, increments]
  | cons x l =>
    have hu := undoCumulative_counts_iff
      ({ x with lower := if x.upper ≤ 0 then lowest else 0 } : HistBin α) x l (le_refl _) hmono
    simp only [implies_true, true_and] at hu
    simp only [convertBins, List.map_cons, increments, HistBin.amount, sub_zero, true_and,
      List.cons.injEq] at hu ⊢
    exact hu

/-- Cumulative counts that do not decrease with the upper bound are taken apart
correctly exactly when all remaining bins but the last two hold zero. -/
theorem sortAndDedupeHistogram_iff (q : QSort (HistBin.upper (α := α))) (bins : List (HistBin α))
    (hmono : ∀ x ∈ bins, ∀ y ∈ bins, x.upper < y.upper → x.count.toNat ≤ y.count.toNat) :
    CumulativeUndone (sortDedup q bins) (sortAndDedupeHistogram lowest q bins) ↔
      ∀ x ∈ (sortDedup q bins).dropLast.dropLast, x.count = 0 := by
  have hcounts := convertBins_counts_iff lowest (sortDedup_counts_mono q hmono)
  refine ⟨fun h => hcounts.mp h.counts, fun h => ?_⟩
  have hup := convertBins_uppers lowest (sortDedup q bins)
  have hout := hcounts.mpr h
  refine ⟨?_, convertBins_lowers _, hup, hout, ?_⟩
  · have hs : ((sortDedup q bins).map HistBin.upper).Pairwise (· < ·) :=
      List.pairwise_map.mpr (sortDedup_strict q bins)
    rw [← hup] at hs
    exact List.pairwise_map.mp hs
  · rw [sortAndDedupeHistogram, hout, sum_increments, sub_zero]

end

/-- Three bins that are not in order, the first of them empty. -/
theorem sortAndDedupeHistogram_zero_first :
    CumulativeUndone (sortDedup (insertionQSort HistBin.upper)
      [HistBin.mk 0 10 5, HistBin.mk 0 1 0, HistBin.mk (0 : Int) 4 2])
      (sortAndDedupeHistogram (-100) (insertionQSort HistBin.upper)
        [HistBin.mk 0 10 5, HistBin.mk 0 1 0, HistBin.mk (0 : Int) 4 2]) :=
  (sortAndDedupeHistogram_iff _ _ (by decide)).mpr (by decide)

theorem sortAndDedupeHistogram_three_bins_fails :
    ((sortAndDedupeHistogram (-100) (insertionQSort HistBin.upper)
        [HistBin.mk 0 1 1, HistBin.mk 0 2 3, HistBin.mk (0 : Int) 3 6]).map HistBin.amount = [1, 2, 4]) ∧
      ¬ ∀ (q : QSort (HistBin.upper (α := Int))) (bins : List (HistBin Int)), bins ≠ [] →
        (∀ x ∈ bins, ∀ y ∈ bins, x.upper < y.upper → x.count.toNat ≤ y.count.toNat) →
        CumulativeUndone (sortDedup q bins) (sortAndDedupeHistogram (-100) q bins) := by
  have hout : (sortAndDedupeHistogram (-100) (insertionQSort HistBin.upper)
      [HistBin.mk 0 1 1, HistBin.mk 0 2 3, HistBin.mk (0 : Int) 3 6]).map HistBin.amount = [1, 2, 4] := by
    decide
  refine ⟨hout, fun h => ?_⟩
  have hc := (h (insertionQSort HistBin.upper)
    [HistBin.mk 0 1 1, HistBin.mk 0 2 3, HistBin.mk 0 3 6] (by simp) (by decide)).counts
  rw [hout] at hc
  exact absurd hc (by decide)

end Reconnoiter
