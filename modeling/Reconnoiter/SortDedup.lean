import Mathlib

/-! Sorting by a key whose ties come out in any order, and the removal of
repeated keys from a sorted array. -/

namespace Reconnoiter

section

variable {α β : Type*} [LinearOrder β]

structure QSort (key : α → β) where
  run : List α → List α
  perm : ∀ l, (run l).Perm l
  sorted : ∀ l, (run l).Pairwise (fun a b => key a ≤ key b)

def squash (key : α → β) : List α → List α
  | [] => []
  | [a] => [a]
  | a :: b :: l => if key a = key b then squash key (b :: l) else a :: squash key (b :: l)

theorem squash_sublist (key : α → β) (l : List α) : (squash key l).Sublist l := by
  fun_induction squash key l with
  | case1 => exact List.Sublist.refl _
  | case2 a => exact List.Sublist.refl _
  | case3 a b l h ih => exact ih.cons a
  | case4 a b l h ih => exact ih.cons_cons a

theorem squash_head_key (key : α → β) (a : α) (l : List α)
    (h : (a :: l).Pairwise (fun x y => key x ≤ key y)) (x : α) (hx : x ∈ squash key (a :: l)) :
    key a ≤ key x := by
  rcases List.mem_cons.mp ((squash_sublist key (a :: l)).subset hx) with rfl | hm
  · exact le_refl _
  · exact (List.pairwise_cons.mp h).1 x hm

theorem squash_strict {key : α → β} {l : List α}
    (h : l.Pairwise (fun a b => key a ≤ key b)) :
    (squash key l).Pairwise (fun a b => key a < key b) := by
  fun_induction squash key l with
  | case1 => exact List.Pairwise.nil
  | case2 a => exact List.pairwise_singleton _ a
  | case3 a b l he ih => exact ih (List.pairwise_cons.mp h).2
  | case4 a b l he ih =>
    have ht := (List.pairwise_cons.mp h).2
    refine List.pairwise_cons.mpr ⟨fun x hx => ?_, ih ht⟩
    have hab : key a < key b := lt_of_le_of_ne ((List.pairwise_cons.mp h).1 b (by simp)) he
    exact hab.trans_le (squash_head_key key b l ht x hx)

theorem exists_mem_squash {key : α → β} {l : List α} {x : α} (hx : x ∈ l) :
    ∃ y ∈ squash key l, key y = key x := by
  fun_induction squash key l generalizing x with
  | case1 => exact absurd hx (by simp)
  | case2 a => exact ⟨x, hx, rfl⟩
  | case3 a b l he ih =>
    rcases List.mem_cons.mp hx with rfl | hm
    · obtain ⟨y, hy, hky⟩ := @ih b (by simp)
      exact ⟨y, hy, hky.trans he.symm⟩
    · exact ih hm
  | case4 a b l he ih =>
    rcases List.mem_cons.mp hx with rfl | hm
    · exact ⟨x, by simp, rfl⟩
    · obtain ⟨y, hy, hky⟩ := ih hm
      exact ⟨y, by simp [hy], hky⟩

theorem squash_eq_self {key : α → β} {l : List α}
    (h : l.Pairwise (fun a b => key a < key b)) : squash key l = l := by
  fun_induction squash key l with
  | case1 => rfl
  | case2 => rfl
  | case3 a b l he ih =>
    have hab := (List.pairwise_cons.mp h).1 b (by simp)
    exact absurd he hab.ne
  | case4 a b l he ih => rw [ih (List.pairwise_cons.mp h).2]

/-- The moves by which an array loses its repeated keys: the entry each one writes first, and how many
it writes. It takes one entry more than there are behind the repeated one. -/
def squashMoves (key : α → β) (i : Nat) : List α → List (Nat × Nat)
  | [] => []
  | [_] => []
  | a :: b :: l =>
    if key a = key b then (i, l.length + 3) :: squashMoves key i (b :: l)
      else squashMoves key (i + 1) (b :: l)

theorem squashMoves_within_iff {key : α → β} {l : List α}
    (h : l.Pairwise (fun a b => key a ≤ key b)) (i size : Nat) :
    (∀ m ∈ squashMoves key i l, m.1 + m.2 ≤ size) ↔ (l.map key).Nodup ∨ i + l.length < size := by
  fun_induction squashMoves key i l with
  | case1 => simp
  | case2 => simp
  | case3 i a b l he ih =>
    have hrest := ih (List.pairwise_cons.mp h).2
    have hnot : ¬ ((a :: b :: l).map key).Nodup := by simp [he]
    rw [List.forall_mem_cons, hrest, or_iff_right hnot]
    simp only [List.length_cons]
    constructor
    · rintro ⟨hmove, -⟩
      omega
    · intro hlt
      exact ⟨by omega, .inr (by omega)⟩
  | case4 i a b l he ih =>
    obtain ⟨ha, ht⟩ := List.pairwise_cons.mp h
    have hab : key a < key b := lt_of_le_of_ne (ha b List.mem_cons_self) he
    have hnew : key a ∉ (b :: l).map key := by
      intro hmem
      obtain ⟨x, hx, hkey⟩ := List.mem_map.mp hmem
      rcases List.mem_cons.mp hx with rfl | hx
      · exact he hkey.symm
      · exact absurd hkey (hab.trans_le ((List.pairwise_cons.mp ht).1 x hx)).ne'
    have hnodup : ((a :: b :: l).map key).Nodup ↔ ((b :: l).map key).Nodup := by
      rw [List.map_cons, List.nodup_cons, and_iff_right hnew]
    have hlen : i + 1 + (b :: l).length = i + (a :: b :: l).length := by
      simp only [List.length_cons]
      omega
    rw [ih ht, hnodup, hlen]

def squashFrom (key : α → β) (a : α) : List α → List α
  | [] => [a]
  | b :: l => if key a = key b then squashFrom key a l else a :: squashFrom key b l

/-- The whole array after that removal. The entries behind the kept ones are
not cleared: they stay as the sort left them. -/
def squashInPlace (key : α → β) : List α → List α
  | [] => []
  | a :: l => squashFrom key a l ++ (a :: l).drop (squashFrom key a l).length

theorem squashFrom_sublist (key : α → β) (a : α) (l : List α) :
    (squashFrom key a l).Sublist (a :: l) := by
  induction l generalizing a with
  | nil => exact List.Sublist.refl _
  | cons b l ih =>
    rw [squashFrom]
    split_ifs with he
    · exact (ih a).trans ((List.sublist_cons_self b l).cons_cons a)
    · exact (ih b).cons_cons a

theorem exists_mem_squashFrom (key : α → β) {a x : α} {l : List α} (hx : x ∈ a :: l) :
    ∃ y ∈ squashFrom key a l, key y = key x := by
  induction l generalizing a x with
  | nil => exact ⟨x, hx, rfl⟩
  | cons b l ih =>
    rw [squashFrom]
    split_ifs with he
    · rcases List.mem_cons.mp hx with rfl | hm
      · exact @ih x x List.mem_cons_self
      · rcases List.mem_cons.mp hm with rfl | hm
        · obtain ⟨y, hy, hky⟩ := @ih a a List.mem_cons_self
          exact ⟨y, hy, hky.trans he⟩
        · exact ih (List.mem_cons_of_mem _ hm)
    · rcases List.mem_cons.mp hx with rfl | hm
      · exact ⟨x, List.mem_cons_self, rfl⟩
      · obtain ⟨y, hy, hky⟩ := ih hm
        exact ⟨y, List.mem_cons_of_mem _ hy, hky⟩

theorem squashFrom_ne_nil (key : α → β) (a : α) (l : List α) : squashFrom key a l ≠ [] := by
  obtain ⟨y, hy, -⟩ := exists_mem_squashFrom key (List.mem_cons_self : a ∈ a :: l)
  exact List.ne_nil_of_mem hy

theorem squashFrom_dropWhile (key : α → β) (a : α) (l : List α) :
    squashFrom key a l = squashFrom key a (l.dropWhile (key a = key ·)) := by
  induction l with
  | nil => rfl
  | cons b l ih =>
    by_cases he : key a = key b
    · rw [squashFrom, if_pos he, List.dropWhile_cons_of_pos (by simpa using he), ih]
    · rw [List.dropWhile_cons_of_neg (by simpa using he)]

def squashKept (key : α → β) : List α → List α
  | [] => []
  | a :: l => squashFrom key a l

theorem squashKept_eq_self {key : α → β} {l : List α}
    (h : l.Pairwise (fun x y => key x < key y)) : squashKept key l = l := by
  cases l with
  | nil => rfl
  | cons a l =>
    show squashFrom key a l = a :: l
    induction l generalizing a with
    | nil => rfl
    | cons b l ih =>
      obtain ⟨ha, ht⟩ := List.pairwise_cons.mp h
      rw [squashFrom, if_neg (ha b List.mem_cons_self).ne, ih b ht]

theorem mem_of_mem_squashInPlace {key : α → β} {l : List α} {x : α}
    (hx : x ∈ squashInPlace key l) : x ∈ l := by
  cases l with
  | nil => exact hx
  | cons a l =>
    rcases List.mem_append.mp hx with h | h
    · exact (squashFrom_sublist key a l).subset h
    · exact List.mem_of_mem_drop h

theorem exists_mem_squashInPlace {key : α → β} {l : List α} {x : α} (hx : x ∈ l) :
    ∃ y ∈ squashInPlace key l, key y = key x := by
  cases l with
  | nil => exact absurd hx List.not_mem_nil
  | cons a l =>
    obtain ⟨y, hy, hky⟩ := exists_mem_squashFrom key hx
    exact ⟨y, List.mem_append_left _ hy, hky⟩

def sortDedup {key : α → β} (q : QSort key) (l : List α) : List α := squash key (q.run l)

theorem sortDedup_strict {key : α → β} (q : QSort key) (l : List α) :
    (sortDedup q l).Pairwise (fun a b => key a < key b) :=
  squash_strict (q.sorted l)

theorem sortDedup_subperm {key : α → β} (q : QSort key) (l : List α) :
    (sortDedup q l).Subperm l :=
  (squash_sublist key (q.run l)).subperm.trans (q.perm l).subperm

theorem exists_mem_sortDedup {key : α → β} (q : QSort key) {l : List α} {x : α} (hx : x ∈ l) :
    ∃ y ∈ sortDedup q l, key y = key x :=
  exists_mem_squash ((q.perm l).symm.subset hx)

theorem sortDedup_eq_nil_iff {key : α → β} (q : QSort key) {l : List α} :
    sortDedup q l = [] ↔ l = [] := by
  constructor
  · intro h
    rw [List.eq_nil_iff_forall_not_mem]
    intro x hx
    obtain ⟨y, hy, _⟩ := exists_mem_sortDedup q hx
    simp [h] at hy
  · rintro rfl
    exact List.eq_nil_of_subset_nil (sortDedup_subperm q []).subset

theorem QSort.run_eq_self {key : α → β} (q : QSort key) {l : List α}
    (h : l.Pairwise (fun a b => key a < key b)) : q.run l = l := by
  have hs : l.Pairwise (fun a b => key a ≤ key b) := h.imp le_of_lt
  refine (q.perm l).eq_of_pairwise (fun a b ha hb hab hba => ?_) (q.sorted l) hs
  have hinj := List.inj_on_of_nodup_map (f := key) (l := l) (by
    rw [List.Nodup, List.pairwise_map]
    exact h.imp ne_of_lt)
  exact hinj ((q.perm l).subset ha) hb (le_antisymm hab hba)

theorem QSort.run_strict {key : α → β} (q : QSort key) {l : List α} (h : (l.map key).Nodup) :
    (q.run l).Pairwise (fun a b => key a < key b) := by
  have hne : ((q.run l).map key).Nodup := ((q.perm l).map key).nodup_iff.mpr h
  exact (q.sorted l).imp₂ (fun _ _ hle hne => lt_of_le_of_ne hle hne) (List.pairwise_map.mp hne)

theorem sortDedup_eq_self {key : α → β} (q : QSort key) {l : List α}
    (h : l.Pairwise (fun a b => key a < key b)) : sortDedup q l = l := by
  rw [sortDedup, q.run_eq_self h, squash_eq_self h]

theorem mem_sortDedup_id (q : QSort (id : β → β)) {l : List β} {x : β} :
    x ∈ sortDedup q l ↔ x ∈ l := by
  refine ⟨fun h => (sortDedup_subperm q l).subset h, fun h => ?_⟩
  obtain ⟨y, hy, rfl⟩ := exists_mem_sortDedup q h
  exact hy

theorem length_sortDedup_id [DecidableEq β] (q : QSort (id : β → β)) (l : List β) :
    (sortDedup q l).length = l.toFinset.card := by
  have hnd : (sortDedup q l).Nodup := (sortDedup_strict q l).imp ne_of_lt
  rw [← List.toFinset_card_of_nodup hnd]
  congr 1
  ext x
  simp [mem_sortDedup_id]

theorem pairwise_map_lt_iff {γ : Type*} [Preorder γ] {l : List β} (f : β → γ)
    (h : l.Pairwise (· < ·)) : (l.map f).Pairwise (· < ·) ↔ StrictMonoOn f {x | x ∈ l} := by
  rw [List.pairwise_map]
  constructor
  · intro hf x hx y hy hxy
    obtain ⟨i, hi, rfl⟩ := List.mem_iff_getElem.mp hx
    obtain ⟨j, hj, rfl⟩ := List.mem_iff_getElem.mp hy
    rcases lt_trichotomy i j with hij | rfl | hij
    · exact List.pairwise_iff_getElem.mp hf i j hi hj hij
    · exact absurd hxy (lt_irrefl _)
    · exact absurd (List.pairwise_iff_getElem.mp h j i hj hi hij) hxy.asymm
  · intro hf
    exact h.imp_of_mem fun hx hy hxy => hf hx hy hxy

def insertionQSort (key : α → β) : QSort key where
  run l := l.insertionSort (fun a b => key a ≤ key b)
  perm l := List.perm_insertionSort _ l
  sorted l := by
    have ht : Std.Total (fun a b : α => key a ≤ key b) := ⟨fun a b => le_total (key a) (key b)⟩
    have htr : IsTrans α (fun a b : α => key a ≤ key b) := ⟨fun _ _ _ => le_trans⟩
    exact List.pairwise_insertionSort _ l

end

end Reconnoiter
