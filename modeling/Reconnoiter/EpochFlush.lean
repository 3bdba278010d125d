import Reconnoiter.RegistryIndex

/-! The flush of the checks that a reload of the configuration left behind: one iteration over the
table, in batches of bounded size. -/

namespace Reconnoiter

/-- One batch: the iterator is asked for a check before the room is looked at, so the check it gives
when there is no room left is passed over. The last check found comes first. -/
def scanBatch (size : Nat) (stale : Nat → Bool) : List Nat → List Nat → List Nat × List Nat
  | [], tofree => (tofree, [])
  | q :: rest, tofree =>
    if tofree.length < size then scanBatch size stale rest (if stale q then q :: tofree else tofree)
    else (tofree, rest)

theorem length_scanBatch_le (size : Nat) (stale : Nat → Bool) (rest tofree : List Nat) :
    (scanBatch size stale rest tofree).2.length ≤ rest.length := by
  fun_induction scanBatch size stale rest tofree with
  | case1 tofree => rfl
  | case2 tofree q rest hroom ih => exact ih.trans (Nat.le_succ _)
  | case3 tofree q rest hroom => exact Nat.le_succ _

theorem length_scanBatch_lt {size : Nat} {stale : Nat → Bool} {rest : List Nat}
    (h : (scanBatch size stale rest []).1 ≠ []) : (scanBatch size stale rest []).2.length < rest.length := by
  cases rest with
  | nil => exact absurd rfl h
  | cons q rest =>
    rw [scanBatch]
    split_ifs
    all_goals exact Nat.lt_succ_of_le (by first | exact length_scanBatch_le _ _ _ _ | exact le_rfl)

namespace Registry

def flushLoop (env : RegistryEnv) (size : Nat) (stale : Nat → Bool) (s : Registry) (rest : List Nat) :
    Option (Registry × List Nat) :=
  if _h : (scanBatch size stale rest []).1 = [] then some (s, [])
  else do
    let s ← (scanBatch size stale rest []).1.foldlM
      (fun s q => (s.deschedule env (s.heap q).checkid false).map Prod.fst) s
    let (s, gone) ← flushLoop env size stale s (scanBatch size stale rest []).2
    return (s, (scanBatch size stale rest []).1 ++ gone)
termination_by rest.length
decreasing_by exact length_scanBatch_lt _h

def flushEpoch (env : RegistryEnv) (generation : Nat → UInt32) (oldestAllowed : UInt32) (order : List Nat)
    (s : Registry) : Option (Registry × List Nat) :=
  s.flushLoop env 1024 (fun q => generation q < oldestAllowed) order

structure Descheduled (s t : Registry) (gone : List Nat) : Prop where
  others : ∀ q, q ∉ gone → t.heap q = s.heap q
  flagged : ∀ q ∈ gone, (t.heap q).flags.disabled ∧ (t.heap q).flags.killed ∧ (t.heap q).flags.deleted
  removed : ∀ v q, s.polls v = some q → q ∈ gone → (s.heap q).configSeq = 0 → t.polls v = none
  kept : ∀ v q, s.polls v = some q → (q ∈ gone → (s.heap q).configSeq ≠ 0) → t.polls v = some q
  absent : ∀ v, s.polls v = none → t.polls v = none

end Registry

def NoneAfterFull (size : Nat) (stale : Nat → Bool) (order : List Nat) : Prop :=
  ∀ i q r, order[i]? = some q → order[i + 1]? = some r → stale q = true → stale r = true →
    ¬ size ∣ (order.take (i + 1)).countP stale

section Batches

variable {size : Nat} {stale : Nat → Bool} {order pre rest tofree : List Nat} {i q r : Nat}

theorem countP_take_succ (hget : order[i]? = some q) (hstale : stale q = true) :
    (order.take (i + 1)).countP stale = (order.take i).countP stale + 1 := by
  rw [List.take_add_one, hget, List.countP_append]
  simp [hstale]

theorem scanBatch_spec (size : Nat) (stale : Nat → Bool) (rest tofree : List Nat)
    (hroom : tofree.length < size) :
    ∃ pre suf, rest = pre ++ suf ∧
      scanBatch size stale rest tofree = ((pre.filter stale).reverse ++ tofree, suf.tail) ∧
      pre.countP stale + tofree.length ≤ size ∧
      (suf ≠ [] → pre.countP stale + tofree.length = size ∧ ∃ pre' q,
        pre = pre' ++ [q] ∧ stale q = true) := by
  induction rest generalizing tofree with
  | nil => exact ⟨[], [], rfl, rfl, by simpa using hroom.le, fun h => absurd rfl h⟩
  | cons q rest ih =>
    rw [scanBatch, if_pos hroom]
    cases hq : stale q with
    | false =>
      rw [if_neg Bool.false_ne_true]
      obtain ⟨pre, suf, hrest, hscan, hle, hfull⟩ := ih tofree hroom
      refine ⟨q :: pre, suf, by rw [hrest]; rfl, by simp [hscan, hq], by simpa [hq] using hle, fun hsuf => ?_⟩
      obtain ⟨hcount, pre', r, hpre, hr⟩ := hfull hsuf
      exact ⟨by simpa [hq] using hcount, q :: pre', r, by rw [hpre]; rfl, hr⟩
    | true =>
      rw [if_pos rfl]
      by_cases hmore : (q :: tofree).length < size
      · obtain ⟨pre, suf, hrest, hscan, hle, hfull⟩ := ih (q :: tofree) hmore
        rw [List.length_cons] at hle hfull
        refine ⟨q :: pre, suf, by rw [hrest]; rfl, by simp [hscan, hq], by simp [hq]; omega, fun hsuf => ?_⟩
        obtain ⟨hcount, pre', r, hpre, hr⟩ := hfull hsuf
        exact ⟨by simp [hq]; omega, q :: pre', r, by rw [hpre]; rfl, hr⟩
      · -- the batch is full, and the next check is passed over
        rw [List.length_cons] at hmore
        refine ⟨[q], rest, rfl, ?_, by simp [hq]; omega, fun _ => ⟨by simp [hq]; omega, [], q, rfl, hq⟩⟩
        cases rest with
        | nil => simp [scanBatch, hq]
        | cons r rest =>
          rw [scanBatch, List.length_cons, if_neg hmore]
          simp [hq]

theorem noneAfterFull_of_le (hle : order.countP stale ≤ size) : NoneAfterFull size stale order := by
  intro i q r hq hr hqs hrs hdvd
  have hq1 := countP_take_succ hq hqs
  have hr1 := countP_take_succ hr hrs
  have hsub : (order.take (i + 1 + 1)).countP stale ≤ order.countP stale := (List.take_sublist _ _).countP_le
  have hsize := Nat.le_of_dvd (by omega) hdvd
  omega

theorem noneAfterFull_skip (hfull : pre.countP stale = size) (hr : stale r = false) :
    NoneAfterFull size stale (pre ++ r :: rest) ↔ NoneAfterFull size stale rest := by
  have hget : ∀ i, (pre ++ r :: rest)[pre.length + 1 + i]? = rest[i]? := by
    intro i
    rw [List.getElem?_append_right (by omega), show pre.length + 1 + i - pre.length = i + 1 by omega]
    rfl
  have htake : ∀ i, ((pre ++ r :: rest).take (pre.length + 1 + i)).countP stale =
    size + (rest.take i).countP stale := by
    intro i
    rw [List.take_append, show pre.length + 1 + i - pre.length = i + 1 by omega,
      List.take_of_length_le (by omega),
      List.take_succ_cons, List.countP_append, List.countP_cons, hfull, hr]
    rfl
  constructor
  · intro h i q q' hq hq' hqs hqs' hdvd
    refine h (pre.length + 1 + i) q q' ((hget i).trans hq) ((hget (i + 1)).trans hq') hqs hqs' ?_
    rw [Nat.add_assoc, htake]
    exact (Nat.dvd_add_right (Nat.dvd_refl size)).mpr hdvd
  · intro h i q q' hq hq' hqs hqs' hdvd
    by_cases hlt : i + 1 < pre.length
    · rw [List.getElem?_append_left (by omega)] at hq
      rw [List.getElem?_append_left hlt] at hq'
      rw [List.take_append_of_le_length (by omega)] at hdvd
      exact noneAfterFull_of_le hfull.le i q q' hq hq' hqs hqs' hdvd
    · by_cases hge : pre.length + 1 ≤ i
      · obtain ⟨j, rfl⟩ := Nat.exists_eq_add_of_le hge
        rw [hget] at hq
        rw [Nat.add_assoc, hget] at hq'
        rw [Nat.add_assoc, htake] at hdvd
        exact h j q q' hq hq' hqs hqs' ((Nat.dvd_add_right (Nat.dvd_refl size)).mp hdvd)
      · have hat : (pre ++ r :: rest)[pre.length]? = some r := by simp
        rcases (by omega : i = pre.length ∨ i + 1 = pre.length) with rfl | heq
        · rw [hat] at hq
          cases hq
          rw [hr] at hqs
          cases hqs
        · rw [heq, hat] at hq'
          cases hq'
          rw [hr] at hqs'
          cases hqs'

theorem not_noneAfterFull (hfull : (pre ++ [q]).countP stale = size) (hq : stale q = true)
    (hr : stale r = true) :
    ¬ NoneAfterFull size stale (pre ++ [q] ++ r :: rest) := by
  intro h
  refine h pre.length q r (by simp) (by simp) hq hr ?_
  rw [List.take_append_of_le_length (by simp), List.take_of_length_le (by simp), hfull]

end Batches

namespace Registry

variable {s t u : Registry} {env : RegistryEnv} {gone gone' : List Nat} {v : Uuid} {p : Nat}

theorem Descheduled.refl (s : Registry) : s.Descheduled s [] :=
  ⟨fun _ _ => rfl, by simp, by simp, fun _ _ h _ => h, fun _ h => h⟩

theorem Descheduled.trans (h : s.Descheduled t gone) (h' : t.Descheduled u gone')
    (hdisjoint : ∀ q ∈ gone, q ∉ gone') : s.Descheduled u (gone ++ gone') := by
  have hnot : ∀ q ∈ gone', q ∉ gone := fun q hq' hq => hdisjoint q hq hq'
  refine ⟨?_, ?_, ?_, ?_, fun v hv => h'.absent v (h.absent v hv)⟩
  · intro q hq
    rw [List.mem_append, not_or] at hq
    rw [h'.others q hq.2, h.others q hq.1]
  · intro q hq
    rcases List.mem_append.mp hq with hq | hq
    · rw [h'.others q (hdisjoint q hq)]
      exact h.flagged q hq
    · exact h'.flagged q hq
  · intro v q hv hq hseq
    rcases List.mem_append.mp hq with hq | hq
    · exact h'.absent v (h.removed v q hv hq hseq)
    · have hv' := h.kept v q hv fun hin => absurd hin (hnot q hq)
      exact h'.removed v q hv' hq (by rw [h.others q (hnot q hq)]; exact hseq)
  · intro v q hv hseq
    refine h'.kept v q (h.kept v q hv fun hq => hseq (List.mem_append_left _ hq)) fun hq => ?_
    rw [h.others q (hnot q hq)]
    exact hseq (List.mem_append_right _ hq)

theorem descheduled_of (h : s.Inv) (hv : s.polls v = some p) (hheap : ∀ q, q ≠ p → t.heap q = s.heap q)
    (hflags : (t.heap p).flags.disabled ∧ (t.heap p).flags.killed ∧ (t.heap p).flags.deleted)
    (hpolls : t.polls = if (s.heap p).configSeq = 0 then Function.update s.polls v none else s.polls) :
    s.Descheduled t [p] := by
  have hown : ∀ w, s.polls w = some p → w = v := fun w hw =>
    (h.indexed w p hw).2.symm.trans (h.indexed v p hv).2
  refine ⟨fun q hq => hheap q (by simpa using hq), ?_, ?_, ?_, ?_⟩
  · intro q hq
    obtain rfl := List.mem_singleton.mp hq
    exact hflags
  · intro w q hw hq hseq
    obtain rfl := List.mem_singleton.mp hq
    rw [hpolls, if_pos hseq, hown w hw, Function.update_self]
  · intro w q hw hkeep
    rw [hpolls]
    split_ifs with hseq
    · rw [Function.update_of_ne, hw]
      rintro rfl
      obtain rfl : p = q := Option.some.inj (hv.symm.trans hw)
      exact hkeep (List.mem_singleton_self p) hseq
    · exact hw
  · intro w hw
    rw [hpolls]
    split_ifs
    · rw [Function.update_apply, hw, ite_self]
    · exact hw

theorem descheduled_one (env : RegistryEnv) (h : s.Inv) (hv : s.polls v = some p) :
    ∃ t rv, s.deschedule env v false = some (t, rv) ∧ t.Inv ∧ s.Descheduled t [p] := by
  obtain ⟨hp, hid⟩ := h.indexed v p hv
  set c : Check := { s.heap p with flags :=
    { (s.heap p).flags with disabled := true, killed := true, deleted := true } } with hc
  by_cases hseq : (s.heap p).configSeq = 0
  · have hfind : (s.set p c).find (s.heap p).key = some p := by
      have hedit : Edit s p (s.set p c) := edit_set c rfl rfl
      rw [find_of_free (hedit.free (h.keys p hp)), if_pos ⟨hp, by rw [heap_set_self]; rfl⟩]
    set s' : Registry := { (s.set p c).removeNode p with polls := Function.update s.polls v none } with hs'
    set u : Registry := s'.set p { s'.heap p with flags := { (s'.heap p).flags with killed := true } } with hu
    have hfree : s'.freeCheck env p = some u := by
      have hnot : ¬ u.find (s'.heap p).key = some p := fun hlisted =>
        h.nodup.not_mem_erase (find_eq_some hlisted).1
      rw [freeCheck]
      change (if _ then some u else if u.find (s'.heap p).key = some p then none else some u) = _
      rw [if_neg hnot, ite_self]
    have hstep : s.deschedule env v false = some (u, 1) := by
      rw [deschedule, hv]
      dsimp only
      rw [if_pos (.inl hseq), ← hc, hfind]
      change (s'.freeCheck env p).bind _ = _
      rw [hfree]
      rfl
    have hup : u.heap p = { c with flags := { c.flags with killed := true } } := by
      rw [hu, heap_set_self, hs']
      exact congrArg (fun d : Check => { d with flags := { d.flags with killed := true } }) (heap_set_self c)
    refine ⟨u, 1, hstep, (inv_deschedule env h hstep).1, descheduled_of h hv (fun q hq => ?_) ?_ ?_⟩
    · rw [hu, heap_set_of_ne hq]
      exact heap_set_of_ne hq c
    · rw [hup]
      exact ⟨rfl, rfl, rfl⟩
    · rw [if_pos hseq]
      rfl
  · have hstep : s.deschedule env v false = some (s.set p c, 0) := by
      rw [deschedule, hv]
      exact if_neg (by simp [hseq])
    refine ⟨_, _, hstep, (inv_deschedule env h hstep).1,
      descheduled_of h hv (fun q hq => heap_set_of_ne hq c) ?_ ?_⟩
    · rw [heap_set_self]
      exact ⟨rfl, rfl, rfl⟩
    · rw [if_neg hseq]
      rfl

theorem descheduled_batch (env : RegistryEnv) (h : s.Inv) {tofree : List Nat} (hnodup : tofree.Nodup)
    (hreg : ∀ q ∈ tofree, ∃ v, s.polls v = some q) :
    ∃ t, tofree.foldlM (fun s q => (s.deschedule env (s.heap q).checkid false).map Prod.fst) s =
      some t ∧ t.Inv ∧
      s.Descheduled t tofree := by
  induction tofree generalizing s with
  | nil => exact ⟨s, rfl, h, .refl s⟩
  | cons q tofree ih =>
    obtain ⟨hq, hnodup⟩ := List.nodup_cons.mp hnodup
    obtain ⟨v, hv⟩ := hreg q List.mem_cons_self
    obtain ⟨t, rv, hstep, hinv, hone⟩ := descheduled_one env h hv
    have hreg' : ∀ r ∈ tofree, ∃ w, t.polls w = some r := by
      intro r hr
      obtain ⟨w, hw⟩ := hreg r (List.mem_cons_of_mem q hr)
      refine ⟨w, hone.kept w r hw fun hrq => ?_⟩
      obtain rfl := List.mem_singleton.mp hrq
      exact absurd hr hq
    obtain ⟨u, hrest, hinv', hmany⟩ := ih hinv hnodup hreg'
    refine ⟨u, ?_, hinv', hone.trans hmany fun r hr => ?_⟩
    · rw [List.foldlM_cons, (h.indexed v q hv).2, hstep]
      exact hrest
    · obtain rfl := List.mem_singleton.mp hr
      exact hq

theorem flushLoop_spec (env : RegistryEnv) {size : Nat} (hsize : 0 < size) (stale : Nat → Bool) (h : s.Inv)
    {rest : List Nat} (hnodup : rest.Nodup) (hreg : ∀ q ∈ rest, ∃ v, s.polls v = some q) :
    ∃ t gone, s.flushLoop env size stale rest = some (t, gone) ∧ s.Descheduled t gone ∧
      (∀ q ∈ gone, q ∈ rest ∧ stale q = true) ∧
      ((∀ q ∈ rest, stale q = true → q ∈ gone) ↔ NoneAfterFull size stale rest) := by
  induction hlen : rest.length using Nat.strong_induction_on generalizing s rest with
  | _ n ih =>
    subst hlen
    obtain ⟨pre, suf, hrest, hscan, hle, hfull⟩ := scanBatch_spec size stale rest [] hsize
    rw [List.append_nil] at hscan
    rw [List.length_nil, Nat.add_zero] at hle hfull
    have hmem : ∀ q, q ∈ (pre.filter stale).reverse ↔ q ∈ pre ∧ stale q = true := by simp
    rw [flushLoop]
    by_cases hnone : (scanBatch size stale rest []).1 = []
    · rw [dif_pos hnone]
      rw [hscan, List.reverse_eq_nil_iff, List.filter_eq_nil_iff] at hnone
      have hzero : pre.countP stale = 0 := List.countP_eq_zero.mpr hnone
      obtain rfl : suf = [] := by
        by_contra hsuf
        have := (hfull hsuf).1
        omega
      rw [List.append_nil] at hrest
      subst hrest
      exact ⟨s, [], rfl, .refl s, by simp, iff_of_true (fun q hq hqs => absurd hqs (hnone q hq))
        (noneAfterFull_of_le hle)⟩
    · rw [dif_neg hnone]
      have hshort := length_scanBatch_lt hnone
      rw [hscan] at hshort ⊢
      dsimp only at hshort ⊢
      rw [hrest, List.nodup_append'] at hnodup
      obtain ⟨hpre, hsuf, hdisjoint⟩ := hnodup
      have hregPre : ∀ q ∈ (pre.filter stale).reverse, ∃ v, s.polls v = some q := fun q hq =>
        hreg q (hrest ▸ List.mem_append_left suf ((hmem q).mp hq).1)
      obtain ⟨t, hbatch, hinv, hgone⟩ := descheduled_batch env h
        (List.nodup_reverse.mpr (hpre.filter stale)) hregPre
      have hregTail : ∀ q ∈ suf.tail, ∃ v, t.polls v = some q := by
        intro q hq
        have hqs := List.mem_of_mem_tail hq
        obtain ⟨v, hv⟩ := hreg q (hrest ▸ List.mem_append_right pre hqs)
        exact ⟨v, hgone.kept v q hv fun hin => absurd hqs (hdisjoint ((hmem q).mp hin).1)⟩
      obtain ⟨u, gone, hloop, hgone', honly, hiff⟩ := ih _ hshort hinv hsuf.tail hregTail rfl
      refine ⟨u, (pre.filter stale).reverse ++ gone, ?_, hgone.trans hgone' ?_, ?_, ?_⟩
      · rw [hbatch]
        change (t.flushLoop env size stale suf.tail).bind _ = _
        rw [hloop]
        rfl
      · intro q hq hq'
        exact hdisjoint ((hmem q).mp hq).1 (List.mem_of_mem_tail (honly q hq').1)
      · intro q hq
        rcases List.mem_append.mp hq with hq | hq
        · exact ⟨hrest ▸ List.mem_append_left suf ((hmem q).mp hq).1, ((hmem q).mp hq).2⟩
        · exact ⟨hrest ▸ List.mem_append_right pre (List.mem_of_mem_tail (honly q hq).1), (honly q hq).2⟩
      · subst hrest
        cases suf with
        | nil =>
          rw [List.append_nil]
          refine iff_of_true (fun q hq hqs => List.mem_append_left gone ((hmem q).mpr ⟨hq, hqs⟩)) ?_
          exact noneAfterFull_of_le hle
        | cons r suf =>
          obtain ⟨hcount, pre', q, hlast, hq⟩ := hfull (List.cons_ne_nil r suf)
          obtain ⟨hr, -⟩ := List.nodup_cons.mp hsuf
          cases hrs : stale r with
          | true =>
            -- passed over by the iterator when the batch was full
            refine iff_of_false (fun hall => ?_) ?_
            · rcases List.mem_append.mp (hall r (by simp) hrs) with hin | hin
              · exact hdisjoint ((hmem r).mp hin).1 List.mem_cons_self
              · exact hr (honly r hin).1
            · rw [hlast] at hcount ⊢
              exact not_noneAfterFull hcount hq hrs
          | false =>
            rw [List.tail_cons] at hiff
            rw [noneAfterFull_skip hcount hrs, ← hiff]
            constructor
            · intro hall q hq hqs
              rcases List.mem_append.mp (hall q (by simp [hq]) hqs) with hin | hin
              · exact absurd (List.mem_cons_of_mem r hq) (hdisjoint ((hmem q).mp hin).1)
              · exact hin
            · intro hall q hq hqs
              rcases List.mem_append.mp hq with hq | hq
              · exact List.mem_append_left gone ((hmem q).mpr ⟨hq, hqs⟩)
              · rcases List.mem_cons.mp hq with rfl | hq
                · rw [hrs] at hqs
                  cases hqs
                · exact List.mem_append_right _ (hall q hq hqs)

/-- The flush deschedules every check of a lower generation and no other exactly when, in the order of
the iteration, no such check directly follows the 1024th, 2048th, … of them. -/
theorem flush_epoch_complete_iff (env : RegistryEnv) (generation : Nat → UInt32) (oldestAllowed : UInt32)
    (s : Registry) (h : s.Inv) (order : List Nat) (hnodup : order.Nodup)
    (horder : ∀ q, q ∈ order ↔ ∃ v, s.polls v = some q) :
    (∃ t gone, s.flushEpoch env generation oldestAllowed order = some (t, gone) ∧ s.Descheduled t gone ∧
      ∀ q, q ∈ gone ↔ (∃ v, s.polls v = some q) ∧ generation q < oldestAllowed) ↔
    NoneAfterFull 1024 (fun q => generation q < oldestAllowed) order := by
  obtain ⟨t, gone, hflush, hgone, honly, hiff⟩ := flushLoop_spec env (by decide : 0 < 1024)
    (fun q => generation q < oldestAllowed) h hnodup fun q hq => (horder q).mp hq
  rw [← hiff]
  constructor
  · rintro ⟨t', gone', hflush', -, hall⟩ q hq hlow
    obtain ⟨-, rfl⟩ := Prod.mk.inj (Option.some.inj (hflush.symm.trans hflush'))
    exact (hall q).mpr ⟨(horder q).mp hq, of_decide_eq_true hlow⟩
  · intro hall
    refine ⟨t, gone, hflush, hgone, fun q => ⟨fun hq => ?_, fun hq => ?_⟩⟩
    · exact ⟨(horder q).mp (honly q hq).1, of_decide_eq_true (honly q hq).2⟩
    · exact hall q ((horder q).mpr hq.1) (decide_eq_true hq.2)

def numbered (q : Nat) : Uuid := .ofNat (q / 256) ::ᵥ .ofNat q ::ᵥ List.Vector.replicate 14 0

theorem numbered_inj {a b : Nat} (ha : a < 65536) (hb : b < 65536) (h : numbered a = numbered b) : a = b := by
  have hhigh := congrArg List.Vector.head h
  have hlow := congrArg (fun v : Uuid => v.tail.head) h
  simp only [numbered, List.Vector.head_cons, List.Vector.tail_cons] at hhigh hlow
  have hhigh := congrArg UInt8.toNat hhigh
  have hlow := congrArg UInt8.toNat hlow
  rw [UInt8.toNat_ofNat', UInt8.toNat_ofNat'] at hhigh hlow
  omega

def numberedRegistry (n : Nat) : Registry where
  heap q := { checkid := numbered q, module := [], target := some [], name := some (numbered q).toList }
  next := n
  polls v := (List.range n).find? fun q => numbered q = v
  byName := List.range n

theorem polls_numbered {n : Nat} (hn : n ≤ 65536) {q : Nat} (hq : q < n) :
    (numberedRegistry n).polls (numbered q) = some q := by
  have hsome : ((numberedRegistry n).polls (numbered q)).isSome :=
    List.find?_isSome.mpr ⟨q, List.mem_range.mpr hq, by simp⟩
  obtain ⟨r, hr⟩ := Option.isSome_iff_exists.mp hsome
  have hlt : r < n := List.mem_range.mp (List.mem_of_find?_eq_some hr)
  have heq : numbered r = numbered q := by simpa using List.find?_some hr
  rw [hr, numbered_inj (by omega) (by omega) heq]

theorem inv_numberedRegistry {n : Nat} (hn : n ≤ 65536) : (numberedRegistry n).Inv := by
  have hlt : ∀ q ∈ (numberedRegistry n).byName, q < n := fun q hq => List.mem_range.mp hq
  refine ⟨List.nodup_range, ?_, fun q _ => ⟨by simp [numberedRegistry], by simp [numberedRegistry]⟩,
    ?_, ?_, ?_⟩
  · intro q hq r hr hne hkey
    have hnq := hlt q hq
    have hnr := hlt r hr
    refine hne (numbered_inj (by omega) (by omega) (List.Vector.toList_injective ?_))
    exact Option.some.inj (congrArg Prod.snd hkey)
  · intro q hq
    exact polls_numbered hn (hlt q hq)
  · intro v q hv
    have heq : numbered q = v := by simpa using List.find?_some hv
    exact ⟨List.mem_of_find?_eq_some hv, heq⟩
  · intro q hq
    exact ⟨hlt q hq, rfl⟩

theorem flush_epoch_two : NoneAfterFull 1024 (fun _ => (0 : UInt32) < 1) [0, 1] ∧
    ∃ t gone, (numberedRegistry 2).flushEpoch plainEnv (fun _ => 0) 1 [0, 1] = some (t, gone) ∧
      (numberedRegistry 2).Descheduled t gone ∧
      ∀ q, q ∈ gone ↔ (∃ v, (numberedRegistry 2).polls v = some q) ∧ (0 : UInt32) < 1 := by
  have hclear : NoneAfterFull 1024 (fun _ => (0 : UInt32) < 1) [0, 1] := noneAfterFull_of_le (by decide)
  have horder : ∀ q, q ∈ [0, 1] ↔ ∃ v, (numberedRegistry 2).polls v = some q := by
    intro q
    constructor
    · intro hq
      exact ⟨numbered q, polls_numbered (by decide) (List.mem_range.mp hq)⟩
    · rintro ⟨v, hv⟩
      exact ((inv_numberedRegistry (by decide : 2 ≤ 65536)).indexed v q hv).1
  exact ⟨hclear, (flush_epoch_complete_iff plainEnv (fun _ => 0) 1 _ (inv_numberedRegistry (by decide)) [0, 1]
    (by decide) horder).mpr hclear⟩

theorem flush_passes_over : ∃ t gone q, q < 1025 ∧
    (numberedRegistry 1025).flushEpoch plainEnv (fun _ => 0) 1 (List.range 1025) = some (t, gone) ∧ q ∉ gone ∧
      (t.heap q).flags.disabled = false ∧ t.polls (numbered q) = some q := by
  obtain ⟨t, gone, hflush, hgone, -, hiff⟩ := flushLoop_spec plainEnv (by decide : 0 < 1024)
    (fun _ => (0 : UInt32) < 1) (inv_numberedRegistry (by decide : 1025 ≤ 65536)) List.nodup_range
    fun q hq => ⟨numbered q, polls_numbered (by decide) (List.mem_range.mp hq)⟩
  have hnot : ¬ NoneAfterFull 1024 (fun _ => (0 : UInt32) < 1) (List.range 1025) := by
    rw [List.range_succ, List.range_succ]
    refine not_noneAfterFull ?_ (by decide) (by decide)
    simp
  rw [← hiff] at hnot
  push Not at hnot
  obtain ⟨q, hq, -, hleft⟩ := hnot
  have hlt := List.mem_range.mp hq
  refine ⟨t, gone, q, hlt, hflush, hleft, ?_,
    hgone.kept _ q (polls_numbered (by decide) hlt) fun h => absurd h hleft⟩
  rw [hgone.others q hleft]
  rfl

end Registry

end Reconnoiter
