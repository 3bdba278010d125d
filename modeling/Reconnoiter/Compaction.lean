import Reconnoiter.SortDedup

/-! Compaction of a sorted array in place: entries that are rejected are moved
over, then entries that repeat the one before them, while the sizes of those
that stay are added up. -/

namespace Reconnoiter

section

variable {α β : Type*} [LinearOrder β] [Inhabited α]

def moveDown (arr : List α) (i count : Nat) : List α :=
  arr.take i ++ ((arr.take count).drop (i + 1) ++ arr.drop (count - 1))

def rejectLoop (valid : α → Bool) : Nat → List α → Nat → Nat → List α × Nat
  | 0, arr, _, count => (arr, count)
  | fuel + 1, arr, counter, count =>
    if counter < count then
      if valid (arr.getD counter default) = false then
        rejectLoop valid fuel (if counter + 1 ≠ count then moveDown arr counter count else arr)
          counter (count - 1)
      else rejectLoop valid fuel arr (counter + 1) count
    else (arr, count)

def skipRepeats (key : α → β) (arr : List α) (left count : Nat) : Nat → Nat → Nat
  | 0, right => right
  | fuel + 1, right =>
    if right < count ∧ key (arr.getD left default) = key (arr.getD right default) then
      skipRepeats key arr left count fuel (right + 1)
    else right

def squashLoop (key : α → β) (size : α → Nat) (count : Nat) :
    Nat → List α → Nat → Nat → Nat → List α × Nat × Nat
  | 0, arr, left, _, sum => (arr, left + 1, sum + left)
  | fuel + 1, arr, left, right, sum =>
    if right < count then
      let sum := sum + size (arr.getD left default)
      let right := skipRepeats key arr left count count right
      if right ≥ count then (arr, left + 1, sum + left)
      else if left + 1 ≠ right then
        squashLoop key size count fuel (arr.set (left + 1) (arr.getD right default)) (left + 1) right sum
      else squashLoop key size count fuel arr (left + 1) (right + 1) sum
    else (arr, left + 1, sum + size (arr.getD left default) + left)

def compactInPlace {key : α → β} (q : QSort key) (size : α → Nat) (valid : α → Bool)
    (arr : List α) : List α × Nat × Nat :=
  match arr with
  | [] => ([], 0, 0)
  | [a] => if valid a = false then ([a], 0, 0) else ([a], 1, size a)
  | arr =>
    let r := rejectLoop valid arr.length (q.run arr) 0 arr.length
    if r.2 = 0 then (r.1, 0, 0) else squashLoop key size r.2 r.2 r.1 0 1 0

omit [LinearOrder β] in
theorem getD_at {i : Nat} (pre : List α) (a : α) (l : List α) (hi : i = pre.length) :
    (pre ++ a :: l).getD i default = a := by
  simp [List.getD, hi]

omit [LinearOrder β] [Inhabited α] in
theorem moveDown_at {i count : Nat} (pre suf : List α) (a b : α) (l : List α)
    (hi : i = pre.length) (hcount : count = pre.length + l.length + 2) :
    moveDown (pre ++ a :: (l ++ [b] ++ suf)) i count = pre ++ (l ++ [b] ++ b :: suf) := by
  have htake : (pre ++ a :: (l ++ [b] ++ suf)).take count = pre ++ a :: (l ++ [b]) := by
    have hsplit : pre ++ a :: (l ++ [b] ++ suf) = (pre ++ a :: (l ++ [b])) ++ suf := by simp
    rw [hsplit]
    exact List.take_left' (by simp; omega)
  have hlast : (pre ++ a :: (l ++ [b] ++ suf)).drop (count - 1) = b :: suf := by
    have hsplit : pre ++ a :: (l ++ [b] ++ suf) = (pre ++ a :: l) ++ b :: suf := by simp
    rw [hsplit]
    exact List.drop_left' (by simp; omega)
  have hdrop : (pre ++ a :: (l ++ [b])).drop (i + 1) = l ++ [b] := by
    simp [hi]
  rw [moveDown, htake, hdrop, hlast, hi, List.take_left]

omit [LinearOrder β] in
theorem rejectLoop_eq (valid : α → Bool) {fuel counter count : Nat} (pre cur suf : List α)
    (hcounter : counter = pre.length) (hcount : count = pre.length + cur.length)
    (hfuel : cur.length ≤ fuel) :
    ∃ suf', suf'.length + (cur.filter valid).length = cur.length + suf.length ∧
      rejectLoop valid fuel (pre ++ (cur ++ suf)) counter count =
        (pre ++ (cur.filter valid ++ suf'), pre.length + (cur.filter valid).length) := by
  induction fuel generalizing pre cur suf counter count with
  | zero =>
    obtain rfl := List.length_eq_zero_iff.mp (Nat.le_zero.mp hfuel)
    exact ⟨suf, by simp, by simp [rejectLoop, hcount]⟩
  | succ fuel ih =>
    cases cur with
    | nil =>
      rw [rejectLoop, if_neg (by simp [hcounter, hcount])]
      exact ⟨suf, by simp, by simp [hcount]⟩
    | cons a l =>
      rw [List.length_cons] at hfuel hcount
      rw [rejectLoop, if_pos (by omega), List.cons_append, getD_at pre a _ hcounter]
      cases hv : valid a with
      | true =>
        obtain ⟨suf', hlen, hloop⟩ := @ih (counter + 1) count (pre ++ [a]) l suf
          (by simp [hcounter]) (by simp; omega) (by omega)
        have hkept : (a :: l).filter valid = a :: l.filter valid := List.filter_cons_of_pos hv
        have hone : pre.length + (a :: l.filter valid).length =
            (pre ++ [a]).length + (l.filter valid).length := by
          simp only [List.length_cons, List.length_append, List.length_nil]
          omega
        refine ⟨suf', by rw [hkept, List.length_cons, List.length_cons]; omega, ?_⟩
        rw [if_neg (by simp), hkept, hone]
        simpa using hloop
      | false =>
        have hkept : (a :: l).filter valid = l.filter valid :=
          List.filter_cons_of_neg (by simp [hv])
        rw [if_pos rfl, hkept]
        -- The entries behind the rejected one move, unless there are none.
        rcases List.eq_nil_or_concat l with rfl | ⟨l, b, rfl⟩
        · obtain ⟨suf', hlen, hloop⟩ := @ih counter (count - 1) pre [] (a :: suf) hcounter
            (by simp at hcount ⊢; omega) (by simp)
          refine ⟨suf', by simp at hlen ⊢; omega, ?_⟩
          rw [if_neg (by simp at hcount ⊢; omega)]
          exact hloop
        · rw [List.concat_eq_append] at hfuel hcount ⊢
          obtain ⟨suf', hlen, hloop⟩ := @ih counter (count - 1) pre (l ++ [b]) (b :: suf) hcounter
            (by omega) (by omega)
          refine ⟨suf', by simp at hlen ⊢; omega, ?_⟩
          rw [List.length_append, List.length_singleton] at hcount
          rw [if_pos (by omega), moveDown_at pre suf a b l hcounter (by omega)]
          exact hloop

theorem skipRepeats_eq (key : α → β) {a : α} {fuel left right count : Nat}
    (pre gap l suf : List α) (hleft : left = pre.length)
    (hright : right = pre.length + 1 + gap.length) (hcount : count = right + l.length)
    (hfuel : l.length ≤ fuel) :
    skipRepeats key (pre ++ a :: (gap ++ (l ++ suf))) left count fuel right =
      right + (l.takeWhile (key a = key ·)).length := by
  induction fuel generalizing gap l right with
  | zero =>
    obtain rfl := List.length_eq_zero_iff.mp (Nat.le_zero.mp hfuel)
    rfl
  | succ fuel ih =>
    cases l with
    | nil =>
      rw [skipRepeats, if_neg (by simp [hcount])]
      rfl
    | cons b l =>
      rw [List.length_cons] at hfuel hcount
      have hb : (pre ++ a :: (gap ++ (b :: l ++ suf))).getD right default = b := by
        have hat := @getD_at α _ right (pre ++ a :: gap) b (l ++ suf) (by simp; omega)
        simpa using hat
      rw [skipRepeats, getD_at pre a _ hleft, hb]
      by_cases he : key a = key b
      · have hnext := @ih (right + 1) (gap ++ [b]) l (by simp; omega) (by omega) (by omega)
        rw [if_pos ⟨by omega, he⟩, List.takeWhile_cons_of_pos (by simpa using he), List.length_cons]
        have harr : pre ++ a :: (gap ++ (b :: l ++ suf)) = pre ++ a :: (gap ++ [b] ++ (l ++ suf)) := by
          simp
        rw [harr, hnext]
        omega
      · rw [if_neg (by simp [he]), List.takeWhile_cons_of_neg (by simpa using he)]
        rfl

omit [Inhabited α] in
theorem settle_entry (size : α → Nat) {kept : List α} (hk : kept ≠ []) (pre more : List α)
    (a x y : α) (sum : Nat) :
    (pre ++ [a] ++ (kept ++ (x :: more).drop kept.length), (pre ++ [a]).length + kept.length,
        sum + size a + (kept.map size).sum + ((pre ++ [a]).length + kept.length - 1)) =
      (pre ++ (a :: kept ++ (a :: y :: more).drop (a :: kept).length),
        pre.length + (a :: kept).length,
        sum + ((a :: kept).map size).sum + (pre.length + (a :: kept).length - 1)) := by
  cases kept with
  | nil => exact absurd rfl hk
  | cons b kept =>
    simp only [List.append_assoc, List.cons_append, List.nil_append, List.length_append,
      List.length_cons, List.length_nil, List.drop_succ_cons, List.map_cons, List.sum_cons,
      Prod.mk.injEq, true_and]
    omega

/-- What the loop leaves of an array whose entries up to `left` are settled: the
first entry of each key, the old entries behind them, and the sizes. -/
theorem squashLoop_eq (key : α → β) (size : α → Nat) {fuel left right count sum : Nat} {a : α}
    (pre gap l suf : List α) (hleft : left = pre.length)
    (hright : right = pre.length + 1 + gap.length) (hcount : count = right + l.length)
    (hfuel : gap.length + l.length < fuel) :
    squashLoop key size count fuel (pre ++ a :: (gap ++ (l ++ suf))) left right sum =
      (pre ++ (squashFrom key a l ++
          (a :: (gap ++ (l ++ suf))).drop (squashFrom key a l).length),
        pre.length + (squashFrom key a l).length,
        sum + ((squashFrom key a l).map size).sum +
          (pre.length + (squashFrom key a l).length - 1)) := by
  induction fuel generalizing pre gap l left right sum a with
  | zero => omega
  | succ fuel ih =>
    rw [squashLoop, getD_at pre a _ hleft]
    by_cases hgo : right < count
    swap
    · obtain rfl : l = [] := List.length_eq_zero_iff.mp (by omega)
      rw [if_neg hgo]
      simp [squashFrom, hleft]
    have hskip := @skipRepeats_eq α β _ _ key a count left right count pre gap l suf hleft hright
      hcount (by omega)
    rw [if_pos hgo, hskip]
    dsimp only
    have hl : l.takeWhile (key a = key ·) ++ l.dropWhile (key a = key ·) = l :=
      List.takeWhile_append_dropWhile
    rw [squashFrom_dropWhile key a l]
    generalize l.takeWhile (key a = key ·) = dup at hl ⊢
    cases hrest : l.dropWhile (key a = key ·) with
    | nil =>
      rw [hrest, List.append_nil] at hl
      rw [if_pos (by rw [hl]; omega)]
      simp [squashFrom, hleft]
    | cons b r =>
      have hb : key a ≠ key b := by
        have hne : l.dropWhile (key a = key ·) ≠ [] := by rw [hrest]; simp
        have hnot := List.head_dropWhile_not (fun x => decide (key a = key x)) hne
        simpa [hrest] using hnot
      rw [hrest] at hl
      clear hskip hrest
      subst hl
      rw [List.length_append, List.length_cons] at hcount hfuel
      have hat : (pre ++ a :: (gap ++ (dup ++ b :: r ++ suf))).getD (right + dup.length) default =
          b := by
        have hx := @getD_at α _ (right + dup.length) (pre ++ a :: (gap ++ dup)) b (r ++ suf)
          (by simp only [List.length_append, List.length_cons]; omega)
        simpa using hx
      rw [if_neg (by omega), hat, squashFrom, if_neg hb]
      have hkept := squashFrom_ne_nil key b r
      have hpre : (pre ++ [a]).length = pre.length + 1 := by simp
      -- Either a gap lies before the next entry to keep, or it is in its place.
      cases hgap : gap ++ dup with
      | nil =>
        obtain ⟨rfl, rfl⟩ := List.append_eq_nil_iff.mp hgap
        simp only [List.length_nil, Nat.add_zero, Nat.zero_add, List.nil_append,
          List.cons_append] at hright hcount hfuel ⊢
        have hnext := @ih (left + 1) (right + 1) (sum + size a) b (pre ++ [a]) [] r
          (by omega) (by rw [hpre, List.length_nil]; omega) (by omega)
          (by rw [List.length_nil]; omega)
        rw [settle_entry size hkept pre _ a b b sum] at hnext
        rw [if_neg (by omega)]
        simpa using hnext
      | cons g gs =>
        have hgs := congrArg List.length hgap
        rw [List.length_append, List.length_cons] at hgs
        have harr : pre ++ a :: (gap ++ (dup ++ b :: r ++ suf)) =
            (pre ++ [a]) ++ g :: (gs ++ (b :: r ++ suf)) := by
          have hx := congrArg (fun m => pre ++ a :: (m ++ (b :: r ++ suf))) hgap
          simpa using hx
        have htail : gap ++ (dup ++ b :: r ++ suf) = g :: (gs ++ (b :: r ++ suf)) := by
          simpa using harr
        have hnext := @ih (left + 1) (right + dup.length) (sum + size a) b (pre ++ [a]) gs (b :: r)
          (by omega) (by omega) (by rw [List.length_cons]; omega) (by rw [List.length_cons]; omega)
        rw [squashFrom, if_pos rfl, settle_entry size hkept pre _ a b g sum] at hnext
        rw [if_pos (by omega), harr, List.set_append_right _ _ (by omega), hpre, hleft,
          Nat.sub_self, List.set_cons_zero, htail]
        rw [hleft] at hnext
        exact hnext

theorem squashLoop_start (key : α → β) (size : α → Nat) {count : Nat} (a : α) (l suf : List α)
    (hcount : count = l.length + 1) :
    squashLoop key size count count (a :: (l ++ suf)) 0 1 0 =
      (squashFrom key a l ++ (a :: (l ++ suf)).drop (squashFrom key a l).length,
        (squashFrom key a l).length,
        ((squashFrom key a l).map size).sum + ((squashFrom key a l).length - 1)) := by
  have hloop := @squashLoop_eq α β _ _ key size count 0 1 count 0 a [] [] l suf rfl rfl (by omega)
    (by simp; omega)
  simpa using hloop

theorem compactInPlace_eq {key : α → β} (q : QSort key) (size : α → Nat) (valid : α → Bool)
    (arr : List α) :
    ∃ rest, rest.length + (squashKept key ((q.run arr).filter valid)).length = arr.length ∧
      compactInPlace q size valid arr =
        (squashKept key ((q.run arr).filter valid) ++ rest,
          (squashKept key ((q.run arr).filter valid)).length,
          ((squashKept key ((q.run arr).filter valid)).map size).sum +
            ((squashKept key ((q.run arr).filter valid)).length - 1)) := by
  have hperm := q.perm arr
  match arr, hperm with
  | [], hperm =>
    rw [List.perm_nil.mp hperm]
    exact ⟨[], by simp [squashKept], by simp [compactInPlace, squashKept]⟩
  | [a], hperm =>
    rw [List.perm_singleton.mp hperm]
    cases hv : valid a with
    | true => exact ⟨[], by simp [hv, squashKept, squashFrom],
        by simp [compactInPlace, hv, squashKept, squashFrom]⟩
    | false => exact ⟨[a], by simp [hv, squashKept], by simp [compactInPlace, hv, squashKept]⟩
  | x :: y :: l, hperm =>
    have hlen := hperm.length_eq
    obtain ⟨suf, hsuf, hreject⟩ := @rejectLoop_eq α _ valid (x :: y :: l).length 0
      (x :: y :: l).length [] (q.run (x :: y :: l)) [] rfl (by rw [hlen]; simp) (le_of_eq hlen)
    simp only [List.nil_append, List.append_nil, List.length_nil, Nat.zero_add,
      Nat.add_zero] at hreject hsuf
    simp only [compactInPlace, hreject]
    rw [hlen] at hsuf
    cases hkept : (q.run (x :: y :: l)).filter valid with
    | nil =>
      rw [hkept] at hsuf
      exact ⟨suf, by simpa [squashKept] using hsuf, by simp [squashKept]⟩
    | cons a kept =>
      rw [hkept, List.length_cons] at hsuf
      have hloop := @squashLoop_start α β _ _ key size (a :: kept).length a kept suf rfl
      have hle := (squashFrom_sublist key a kept).length_le
      rw [List.length_cons] at hle
      refine ⟨(a :: (kept ++ suf)).drop (squashFrom key a kept).length, ?_, ?_⟩
      · simp only [squashKept, List.length_drop, List.length_cons, List.length_append] at hsuf ⊢
        omega
      · rw [if_neg (by simp), List.cons_append]
        exact hloop

end

end Reconnoiter
