import Mathlib

/-! Tables in key order, as an ordered store keeps them: reads and writes of one key, scans from
a key on, and transactions that start over when the store has run out of room. -/

namespace Reconnoiter

structure OrderedTable (K V : Type*) [LinearOrder K] where
  entries : List (K × V)
  sorted : entries.Pairwise (fun a b => a.1 < b.1)

namespace OrderedTable

variable {K V : Type*} [LinearOrder K]

def empty : OrderedTable K V := ⟨[], List.Pairwise.nil⟩

def get (t : OrderedTable K V) (k : K) : Option V := (t.entries.find? (·.1 = k)).map Prod.snd

theorem put_sorted (t : OrderedTable K V) (k : K) (v : V) :
    (t.entries.filter (·.1 < k) ++ (k, v) :: t.entries.filter (k < ·.1)).Pairwise (fun a b => a.1 < b.1) := by
  have hbelow : ∀ e ∈ t.entries.filter (·.1 < k), e.1 < k := by
    intro e he
    simpa using (List.mem_filter.mp he).2
  have habove : ∀ e ∈ t.entries.filter (k < ·.1), k < e.1 := by
    intro e he
    simpa using (List.mem_filter.mp he).2
  rw [List.pairwise_append, List.pairwise_cons]
  refine ⟨t.sorted.filter _, ⟨habove, t.sorted.filter _⟩, ?_⟩
  intro a ha b hb
  rcases List.mem_cons.mp hb with rfl | hb
  · exact hbelow a ha
  · exact (hbelow a ha).trans (habove b hb)

def put (t : OrderedTable K V) (k : K) (v : V) : OrderedTable K V :=
  ⟨t.entries.filter (·.1 < k) ++ (k, v) :: t.entries.filter (k < ·.1), put_sorted t k v⟩

def erase (t : OrderedTable K V) (k : K) : OrderedTable K V :=
  ⟨t.entries.filter (·.1 ≠ k), t.sorted.filter _⟩

def scanFrom (t : OrderedTable K V) (k : K) : List (K × V) := t.entries.dropWhile (·.1 < k)

theorem find?_of_mem {l : List (K × V)} (h : l.Pairwise (fun a b => a.1 < b.1))
    {k : K} {v : V} (hm : (k, v) ∈ l) :
    l.find? (·.1 = k) = some (k, v) := by
  induction l with
  | nil => exact absurd hm List.not_mem_nil
  | cons e l ih =>
    obtain ⟨hlt, htail⟩ := List.pairwise_cons.mp h
    rcases List.mem_cons.mp hm with rfl | hm
    · simp
    · have hne : e.1 ≠ k := (hlt _ hm).ne
      rw [List.find?_cons_of_neg (by simpa using hne)]
      exact ih htail hm

theorem mem_entries_iff {t : OrderedTable K V} {k : K} {v : V} : (k, v) ∈ t.entries ↔ t.get k = some v := by
  constructor
  · intro hm
    rw [get, find?_of_mem t.sorted hm]
    rfl
  · intro h
    obtain ⟨⟨k', v'⟩, hfind, rfl⟩ := Option.map_eq_some_iff.mp h
    have hk : k' = k := by simpa using List.find?_some hfind
    subst hk
    exact List.mem_of_find?_eq_some hfind

theorem ext_get {t t' : OrderedTable K V} (h : ∀ k, t.get k = t'.get k) : t = t' := by
  have hirrefl : Std.Irrefl (fun a b : K × V => a.1 < b.1) := ⟨fun a => lt_irrefl a.1⟩
  have hantisymm : Std.Antisymm (fun a b : K × V => a.1 < b.1) :=
    ⟨fun a b hab hba => absurd hba (lt_asymm hab)⟩
  have hentries : t.entries = t'.entries := by
    refine List.Pairwise.eq_of_mem_iff t.sorted t'.sorted fun e => ?_
    rw [mem_entries_iff (k := e.1), mem_entries_iff (k := e.1), h]
  cases t
  cases t'
  cases hentries
  rfl

theorem get_put (t : OrderedTable K V) (k k' : K) (v : V) :
    (t.put k v).get k' = if k' = k then some v else t.get k' := by
  refine Option.ext fun w => ?_
  rw [← mem_entries_iff, put]
  split_ifs with hk
  · subst hk
    simp [eq_comm]
  · rcases lt_or_gt_of_ne hk with hlt | hlt
    · simp [mem_entries_iff, hk, hlt, hlt.not_gt]
    · simp [mem_entries_iff, hk, hlt, hlt.not_gt]

theorem get_erase (t : OrderedTable K V) (k k' : K) :
    (t.erase k).get k' = if k' = k then none else t.get k' := by
  refine Option.ext fun w => ?_
  rw [← mem_entries_iff, erase]
  split_ifs with hk
  · simp [hk]
  · simp [mem_entries_iff, hk]

def putAll (t : OrderedTable K V) (rows : List (K × V)) : OrderedTable K V :=
  rows.foldl (fun t row => t.put row.1 row.2) t

def eraseAll (t : OrderedTable K V) (ks : List K) : OrderedTable K V := ks.foldl erase t

def lastPut (rows : List (K × V)) (k : K) : Option V := (rows.reverse.find? (·.1 = k)).map Prod.snd

theorem lastPut_isSome_iff {rows : List (K × V)} {k : K} :
    (lastPut rows k).isSome ↔ k ∈ rows.map Prod.fst := by
  simp [lastPut]

theorem lastPut_of_unique {rows : List (K × V)} {k : K} {v : V} (h : (k, v) ∈ rows)
    (hunique : ∀ w, (k, w) ∈ rows → w = v) : lastPut rows k = some v := by
  obtain ⟨w, hw⟩ := Option.isSome_iff_exists.mp
    (lastPut_isSome_iff.mpr (List.mem_map_of_mem (f := Prod.fst) h))
  obtain ⟨⟨k', w'⟩, hfind, rfl⟩ := Option.map_eq_some_iff.mp hw
  have hk : k' = k := by simpa using List.find?_some hfind
  subst hk
  rw [hw, hunique w' (List.mem_reverse.mp (List.mem_of_find?_eq_some hfind))]

theorem putAll_append (t : OrderedTable K V) (rows rows' : List (K × V)) :
    t.putAll (rows ++ rows') = (t.putAll rows).putAll rows' :=
  List.foldl_append

theorem lastPut_cons (row : K × V) (rows : List (K × V)) (k : K) :
    lastPut (row :: rows) k = (lastPut rows k).or (if k = row.1 then some row.2 else none) := by
  unfold lastPut
  rw [List.reverse_cons, List.find?_append]
  by_cases hk : row.1 = k
  · cases rows.reverse.find? (·.1 = k) <;> simp [hk]
  · cases rows.reverse.find? (·.1 = k) <;> simp [hk, Ne.symm hk]

theorem get_putAll (t : OrderedTable K V) (rows : List (K × V)) (k : K) :
    (t.putAll rows).get k = (lastPut rows k).or (t.get k) := by
  induction rows generalizing t with
  | nil => rfl
  | cons row rows ih =>
    change ((t.put row.1 row.2).putAll rows).get k = _
    rw [ih, lastPut_cons, get_put, Option.or_assoc]
    split_ifs <;> rfl

theorem lastPut_filterMap_eq_none_iff {ι : Type*} {row : ι → Option (K × V)} {items : List ι} {k : K} :
    lastPut (items.filterMap row) k = none ↔ ∀ i ∈ items, ∀ w, row i ≠ some (k, w) := by
  rw [← Option.not_isSome_iff_eq_none, lastPut_isSome_iff]
  constructor
  · intro h i hi w hw
    exact h (List.mem_map.mpr ⟨(k, w), List.mem_filterMap.mpr ⟨i, hi, hw⟩, rfl⟩)
  · intro h hk
    obtain ⟨⟨k', w⟩, hmem, rfl⟩ := List.mem_map.mp hk
    obtain ⟨i, hi, hw⟩ := List.mem_filterMap.mp hmem
    exact h i hi w hw

/-- The value of a key is that of the last item whose row has it. -/
theorem lastPut_filterMap_eq_some_iff {ι : Type*} {row : ι → Option (K × V)}
    {items : List ι} {k : K} {v : V} :
    lastPut (items.filterMap row) k = some v ↔
      ∃ before item after, items = before ++ item :: after ∧ row item = some (k, v) ∧
        ∀ i ∈ after, ∀ w, row i ≠ some (k, w) := by
  constructor
  · intro h
    induction items with
    | nil => cases h
    | cons item items ih =>
      by_cases hrest : lastPut (items.filterMap row) k = some v
      · obtain ⟨before, i, after, rfl, hi, hafter⟩ := ih hrest
        exact ⟨item :: before, i, after, rfl, hi, hafter⟩
      · cases hrow : row item with
        | none =>
          rw [List.filterMap_cons_none hrow] at h
          exact absurd h hrest
        | some r =>
          rw [List.filterMap_cons_some hrow, lastPut_cons] at h
          cases hlast : lastPut (items.filterMap row) k with
          | some w =>
            rw [hlast, Option.some_or] at h
            exact absurd (hlast.trans h) hrest
          | none =>
            rw [hlast, Option.none_or] at h
            split_ifs at h with hk
            cases h
            exact ⟨[], item, items, rfl, hk ▸ hrow, lastPut_filterMap_eq_none_iff.mp hlast⟩
  · rintro ⟨before, item, after, rfl, hitem, hafter⟩
    induction before with
    | nil =>
      rw [List.nil_append, List.filterMap_cons_some hitem, lastPut_cons,
        lastPut_filterMap_eq_none_iff.mpr hafter, if_pos rfl]
      rfl
    | cons i before ih =>
      cases hrow : row i with
      | none =>
        rw [List.cons_append, List.filterMap_cons_none hrow]
        exact ih
      | some r =>
        rw [List.cons_append, List.filterMap_cons_some hrow, lastPut_cons, ih]
        rfl

theorem get_eraseAll (t : OrderedTable K V) (ks : List K) (k : K) :
    (t.eraseAll ks).get k = if k ∈ ks then none else t.get k := by
  induction ks generalizing t with
  | nil => rfl
  | cons k' ks ih =>
    change ((t.erase k').eraseAll ks).get k = _
    rw [ih, get_erase]
    by_cases hk : k = k'
    · simp [hk]
    · simp [hk]

theorem takeWhile_eq_filter {l : List (K × V)} (h : l.Pairwise (fun a b => a.1 < b.1)) {k : K} {p : K → Bool}
    (hle : ∀ e ∈ l, k ≤ e.1) (hconvex : ∀ a b, k ≤ a → a < b → p b = true → p a = true) :
    l.takeWhile (fun e => p e.1) = l.filter (fun e => p e.1) := by
  induction l with
  | nil => rfl
  | cons e l ih =>
    obtain ⟨hlt, htail⟩ := List.pairwise_cons.mp h
    have hrest := ih htail fun e' he' => hle e' (List.mem_cons_of_mem _ he')
    cases hp : p e.1 with
    | true => simp [hp, hrest]
    | false =>
      have hnone : ∀ e' ∈ l, ¬ p e'.1 = true := by
        intro e' he' hp'
        have hpe := hconvex e.1 e'.1 (hle e List.mem_cons_self) (hlt e' he') hp'
        rw [hp] at hpe
        cases hpe
      rw [List.takeWhile_cons_of_neg (by simp [hp]), List.filter_cons_of_neg (by simp [hp]),
        List.filter_eq_nil_iff.mpr hnone]

/-- A scan that stops at the first key outside a class of keys finds the whole class, when the
class starts at or behind the key and is not interrupted. -/
theorem takeWhile_scanFrom (t : OrderedTable K V) {k : K} {p : K → Bool} (hfirst : ∀ a, p a = true → k ≤ a)
    (hconvex : ∀ a b, k ≤ a → a < b → p b = true → p a = true) :
    (t.scanFrom k).takeWhile (fun e => p e.1) = t.entries.filter (fun e => p e.1) := by
  obtain ⟨entries, h⟩ := t
  unfold scanFrom
  dsimp only
  induction entries with
  | nil => rfl
  | cons e l ih =>
    obtain ⟨hlt, htail⟩ := List.pairwise_cons.mp h
    rcases lt_or_ge e.1 k with hbelow | hge
    · have hp : ¬ p e.1 = true := fun hp => absurd (hfirst e.1 hp) hbelow.not_ge
      rw [List.dropWhile_cons_of_pos (by simpa using hbelow), List.filter_cons_of_neg (by simpa using hp)]
      exact ih htail
    · rw [List.dropWhile_cons_of_neg (by simpa using hge)]
      refine takeWhile_eq_filter h (fun e' he' => ?_) hconvex
      rcases List.mem_cons.mp he' with rfl | he'
      · exact hge
      · exact hge.trans (hlt e' he').le

end OrderedTable

section Dictionary

variable {α : Type*} [LinearOrder α] {p a r : List α}

theorem le_append (p r : List α) : p ≤ p ++ r := by
  refine le_of_not_gt fun hlt => ?_
  induction p with
  | nil => exact List.not_lt_nil _ hlt
  | cons x p ih =>
    rw [List.cons_append, List.cons_lt_cons_iff] at hlt
    rcases hlt with hlt | ⟨-, hlt⟩
    · exact lt_irrefl x hlt
    · exact ih hlt

theorem isPrefix_of_between (hle : p ≤ a) (hlt : a < p ++ r) : p <+: a := by
  have hnot : ¬ a < p := hle.not_gt
  clear hle
  induction p generalizing a with
  | nil => exact List.nil_prefix
  | cons x p ih =>
    cases a with
    | nil => exact absurd (List.nil_lt_cons x p) hnot
    | cons y a =>
      rw [List.cons_append, List.cons_lt_cons_iff] at hlt
      rw [List.cons_lt_cons_iff, not_or] at hnot
      rcases hlt with hyx | ⟨rfl, hlt⟩
      · exact absurd hyx hnot.1
      · rw [List.cons_prefix_cons]
        exact ⟨rfl, ih hlt fun h => hnot.2 ⟨rfl, h⟩⟩

end Dictionary

structure TxnState (K V : Type) [LinearOrder K] where
  table : OrderedTable K V
  room : Nat

/-- The ways a transaction ends before its commit: the map is full, the process is, or the caller
gives up and returns. -/
inductive TxnStop (α : Type) where
  | mapFull
  | fatal
  | abort (a : α)

abbrev Txn (K V : Type) [LinearOrder K] (α : Type) := StateT (TxnState K V) (Except (TxnStop α))

inductive TxnResult (K V : Type) [LinearOrder K] (α : Type) where
  | fatal
  | done (a : α) (table : OrderedTable K V)

inductive TxnOutcome (K V : Type) [LinearOrder K] (α β : Type) where
  | ok (b : β) (table : OrderedTable K V)
  | abort (a : α)
  | fatal

section Txn

variable {K V α β γ : Type} [LinearOrder K]

namespace Txn

def get (k : K) : Txn K V α (Option V) := fun st => .ok (st.table.get k, st)

def put (refused : Bool) (k : K) (v : V) : Txn K V α Unit := fun st =>
  if refused then .error .fatal
  else if st.room = 0 then .error .mapFull
  else .ok ((), ⟨st.table.put k v, st.room - 1⟩)

def del (k : K) : Txn K V α Unit := fun st =>
  if st.table.get k = none then .ok ((), st)
  else if st.room = 0 then .error .mapFull
  else .ok ((), ⟨st.table.erase k, st.room - 1⟩)

def abort (a : α) : Txn K V α β := fun _ => .error (.abort a)

def fatal : Txn K V α β := fun _ => .error .fatal

end Txn

def TxnOutcome.after (o : TxnOutcome K V α β) (room : Nat) : Except (TxnStop α) (β × TxnState K V) :=
  match o with
  | .ok b t => .ok (b, ⟨t, room⟩)
  | .abort a => .error (.abort a)
  | .fatal => .error .fatal

def TxnOutcome.result (o : TxnOutcome K V α α) (t : OrderedTable K V) : TxnResult K V α :=
  match o with
  | .ok a t' => .done a t'
  | .abort a => .done a t
  | .fatal => .fatal

def TxnOutcome.Stops (s : Set α) (o : TxnOutcome K V α β) : Prop := (∃ a ∈ s, o = .abort a) ∨ o = .fatal

/-- Tries the transaction with one map after the other until one has the room. Every try starts from the
same table. -/
def transact (attempt : Txn K V α α) (t : OrderedTable K V) : List Nat → Option (TxnResult K V α)
  | [] => none
  | room :: rooms =>
    match attempt ⟨t, room⟩ with
    | .ok (a, st) => if st.room = 0 then transact attempt t rooms else some (.done a st.table)
    | .error .mapFull => transact attempt t rooms
    | .error .fatal => some .fatal
    | .error (.abort a) => some (.done a t)

def Gives (m : Txn K V α β) (t : OrderedTable K V) (n : Nat) (o : TxnOutcome K V α β) : Prop :=
  ∀ room, m ⟨t, room⟩ = if n ≤ room then o.after (room - n) else .error .mapFull

namespace Gives

variable {m : Txn K V α β} {f : β → Txn K V α γ} {t t' : OrderedTable K V} {n n' : Nat} {b : β}

theorem pure (b : β) (t : OrderedTable K V) : Gives (Pure.pure b : Txn K V α β) t 0 (.ok b t) := fun _ => rfl

theorem get (k : K) (t : OrderedTable K V) : Gives (Txn.get k : Txn K V α _) t 0 (.ok (t.get k) t) :=
  fun _ => rfl

theorem abort (a : α) (t : OrderedTable K V) : Gives (Txn.abort a : Txn K V α β) t 0 (.abort a) :=
  fun _ => rfl

theorem fatal (t : OrderedTable K V) : Gives (Txn.fatal : Txn K V α β) t 0 .fatal := fun _ => rfl

theorem put (t : OrderedTable K V) (k : K) (v : V) :
    Gives (Txn.put false k v : Txn K V α Unit) t 1 (.ok () (t.put k v)) := by
  intro room
  cases room with
  | zero => rfl
  | succ room => simp [Txn.put, TxnOutcome.after]

theorem refused (t : OrderedTable K V) (k : K) (v : V) :
    Gives (Txn.put true k v : Txn K V α Unit) t 0 .fatal :=
  fun _ => rfl

theorem del_absent {k : K} (h : t.get k = none) : Gives (Txn.del k : Txn K V α Unit) t 0 (.ok () t) := by
  intro room
  simp [Txn.del, h, TxnOutcome.after]

theorem del {k : K} (h : t.get k ≠ none) : Gives (Txn.del k : Txn K V α Unit) t 1 (.ok () (t.erase k)) := by
  intro room
  cases room with
  | zero => simp [Txn.del, h]
  | succ room => simp [Txn.del, h, TxnOutcome.after]

theorem bind (hm : Gives m t n (.ok b t')) {o : TxnOutcome K V α γ} (hf : Gives (f b) t' n' o) :
    Gives (m >>= f) t (n + n') o := by
  intro room
  have hbind : (m >>= f) ⟨t, room⟩ = (m ⟨t, room⟩ >>= fun r => f r.1 r.2) := rfl
  rw [hbind, hm room]
  by_cases hn : n ≤ room
  · rw [if_pos hn]
    have hroom : n' ≤ room - n ↔ n + n' ≤ room := by omega
    have hleft : room - n - n' = room - (n + n') := by omega
    change f b ⟨t', room - n⟩ = _
    rw [hf, hleft]
    simp only [hroom]
  · rw [if_neg hn, if_neg (by omega)]
    rfl

theorem next {m' : Txn K V α γ} (hm : Gives m t n (.ok b t')) {o : TxnOutcome K V α γ}
    (hm' : Gives m' t' n' o) :
    Gives (m >>= fun _ => m') t (n + n') o :=
  hm.bind hm'

theorem bind_abort {a : α} (hm : Gives m t n (.abort a)) : Gives (m >>= f) t n (.abort a) := by
  intro room
  have hbind : (m >>= f) ⟨t, room⟩ = (m ⟨t, room⟩ >>= fun r => f r.1 r.2) := rfl
  rw [hbind, hm room]
  split_ifs <;> rfl

theorem bind_fatal (hm : Gives m t n .fatal) : Gives (m >>= f) t n .fatal := by
  intro room
  have hbind : (m >>= f) ⟨t, room⟩ = (m ⟨t, room⟩ >>= fun r => f r.1 r.2) := rfl
  rw [hbind, hm room]
  split_ifs <;> rfl

theorem bind_stops {stops : Set α} {o : TxnOutcome K V α β} (hm : Gives m t n o) (ho : o.Stops stops) :
    ∃ o' : TxnOutcome K V α γ, o'.Stops stops ∧ Gives (m >>= f) t n o' := by
  rcases ho with ⟨a, ha, rfl⟩ | rfl
  · exact ⟨.abort a, .inl ⟨a, ha, rfl⟩, hm.bind_abort⟩
  · exact ⟨.fatal, .inr rfl, hm.bind_fatal⟩

section Loop

variable {ι σ : Type} {step : σ → ι → Txn K V α σ} {f : σ → ι → σ}
    {g : OrderedTable K V → ι → OrderedTable K V}
  {l : List ι}

theorem foldlM_ok (h : ∀ x ∈ l, ∀ s t, ∃ n, Gives (step s x) t n (.ok (f s x) (g t x))) (s : σ)
    (t : OrderedTable K V) : ∃ n, Gives (l.foldlM step s) t n (.ok (l.foldl f s) (l.foldl g t)) := by
  induction l generalizing s t with
  | nil => exact ⟨0, Gives.pure s t⟩
  | cons x l ih =>
    obtain ⟨n, hx⟩ := h x List.mem_cons_self s t
    obtain ⟨n', hl⟩ := ih (fun y hy => h y (List.mem_cons_of_mem _ hy)) (f s x) (g t x)
    rw [List.foldlM_cons]
    exact ⟨n + n', hx.bind hl⟩

theorem foldlM_stops {stops : Set α} {good : ι → Prop}
    (hgood : ∀ x, good x → ∀ s t, ∃ n, Gives (step s x) t n (.ok (f s x) (g t x)))
    (hbad : ∀ x, ¬ good x → ∀ s t, ∃ n o, o.Stops stops ∧ Gives (step s x) t n o)
    (h : ∃ x ∈ l, ¬ good x) (s : σ)
    (t : OrderedTable K V) : ∃ n o, o.Stops stops ∧ Gives (l.foldlM step s) t n o := by
  induction l generalizing s t with
  | nil =>
    obtain ⟨x, hx, -⟩ := h
    cases hx
  | cons x l ih =>
    rw [List.foldlM_cons]
    by_cases hx : good x
    · have hl : ∃ x ∈ l, ¬ good x := by
        obtain ⟨y, hy, hbad⟩ := h
        rcases List.mem_cons.mp hy with rfl | hy
        · exact absurd hx hbad
        · exact ⟨y, hy, hbad⟩
      obtain ⟨n, hx⟩ := hgood x hx s t
      obtain ⟨n', o, ho, hl⟩ := ih hl (f s x) (g t x)
      exact ⟨n + n', o, ho, hx.bind hl⟩
    · obtain ⟨n, o, ho, hx⟩ := hbad x hx s t
      obtain ⟨o', ho', hl⟩ := hx.bind_stops ho
      exact ⟨n, o', ho', hl⟩

theorem forM_del (ks : List K) (t : OrderedTable K V) :
    ∃ n, Gives (ks.forM Txn.del : Txn K V α PUnit) t n (.ok ⟨⟩ (t.eraseAll ks)) := by
  induction ks generalizing t with
  | nil => exact ⟨0, Gives.pure _ t⟩
  | cons k ks ih =>
    have hcons : ((k :: ks).forM Txn.del : Txn K V α PUnit) = (Txn.del k >>= fun _ => ks.forM Txn.del) := rfl
    rw [hcons]
    by_cases hk : t.get k = none
    · have herase : t.erase k = t := OrderedTable.ext_get fun k' => by
        rw [OrderedTable.get_erase]
        split_ifs with h
        · rw [h, hk]
        · rfl
      obtain ⟨n, hks⟩ := ih t
      have hall : t.eraseAll (k :: ks) = t.eraseAll ks := congrArg (OrderedTable.eraseAll · ks) herase
      rw [hall]
      exact ⟨0 + n, (del_absent hk).next hks⟩
    · obtain ⟨n, hks⟩ := ih (t.erase k)
      exact ⟨1 + n, (del hk).next hks⟩

end Loop

variable {attempt : Txn K V α α} {o : TxnOutcome K V α α} {rooms : List Nat}

theorem of_transact (h : Gives attempt t n o) {r : TxnResult K V α} (hr : transact attempt t rooms = some r) :
    r = o.result t := by
  induction rooms with
  | nil => cases hr
  | cons room rooms ih =>
    rw [transact, h room] at hr
    by_cases hn : n ≤ room
    · rw [if_pos hn] at hr
      cases o with
      | ok a t' =>
        simp only [TxnOutcome.after] at hr
        split_ifs at hr with hfull
        · exact ih hr
        · exact (Option.some.inj hr).symm
      | abort a => exact (Option.some.inj hr).symm
      | fatal => exact (Option.some.inj hr).symm
    · rw [if_neg hn] at hr
      exact ih hr

theorem transact_eq (h : Gives attempt t n o) (hroom : ∃ room ∈ rooms, n < room) :
    transact attempt t rooms = some (o.result t) := by
  cases hr : transact attempt t rooms with
  | some r => rw [h.of_transact hr]
  | none =>
    exfalso
    induction rooms with
    | nil =>
      obtain ⟨room, hmem, -⟩ := hroom
      cases hmem
    | cons room rooms ih =>
      rw [transact, h room] at hr
      by_cases hn : n < room
      · rw [if_pos hn.le] at hr
        have hleft : room - n ≠ 0 := by omega
        cases o <;> simp [TxnOutcome.after, hleft] at hr
      · have hlater : ∃ room ∈ rooms, n < room := by
          obtain ⟨r, hmem, hlt⟩ := hroom
          rcases List.mem_cons.mp hmem with rfl | hmem
          · exact absurd hlt hn
          · exact ⟨r, hmem, hlt⟩
        refine ih hlater ?_
        by_cases hle : n ≤ room
        · rw [if_pos hle] at hr
          have hleft : room - n = 0 := by omega
          cases o <;> simp [TxnOutcome.after, hleft] at hr
          exact hr
        · rwa [if_neg hle] at hr

end Gives

end Txn

end Reconnoiter
