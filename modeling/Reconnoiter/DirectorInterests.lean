import Reconnoiter.Uuid

/-! Exact interests in `noit_metric_director.c`: counts of interest per lane,
registered under a check and a metric name, and the lanes a message goes to. -/

namespace Reconnoiter

/-- `interest_cnt_t` for every lane. -/
abbrev Interests (n : Nat) := Fin n → UInt16

instance oneLaneNeZero : NeZero 1 := inferInstance

def safeThreadId (n : Nat) [NeZero n] (threadId : Int) : Fin n :=
  if threadId < 0 then 0 else Fin.ofNat n threadId.toNat

def ushrtMax : Nat := 65535

def adjustInterest (cnt : UInt16) (adj : Int) : UInt16 :=
  if cnt.toNat = ushrtMax then cnt
  else
    let tmp : Int := cnt.toNat + adj
    if tmp < 0 then 0 else if tmp > ushrtMax then .ofNat ushrtMax else .ofNat tmp.toNat

/-- `id_level`: by check, then by metric name. -/
abbrev IdLevel (n : Nat) := Uuid → Option (Bytes → Option (Interests n))

def IdLevel.retrieve {n : Nat} (table : IdLevel n) (id : Uuid) (metric : Bytes) :
    Option (Interests n) :=
  match table id with
  | none => none
  | some level2 => level2 metric

def IdLevel.store {n : Nat} (table : IdLevel n) (id : Uuid) (metric : Bytes) (v : Interests n) :
    IdLevel n :=
  Function.update table id (some (Function.update ((table id).getD fun _ => none) metric (some v)))

-- The level of a check is made even when there is nothing to put into it.
def adjustMetricInterestOnThread {n : Nat} [NeZero n] (table : IdLevel n) (threadId : Int) (id : Uuid)
    (metric : Bytes) (adj : Int) : IdLevel n × UInt16 :=
  let lane := safeThreadId n threadId
  match table.retrieve id metric with
  | none =>
    if adj < 0 then (Function.update table id (some ((table id).getD fun _ => none)), 0)
    else (table.store id metric (Function.update 0 lane (.ofNat adj.toNat)), .ofNat adj.toNat)
  | some v =>
    let cnt := adjustInterest (v lane) adj
    (table.store id metric (Function.update v lane cnt), cnt)

/-- `noit_metric_id_t`: the name with its tags, of which the first `nameLen`
bytes are the bare name. -/
structure MetricId where
  accountId : Nat
  id : Uuid
  name : Bytes
  nameLen : Nat
  deriving DecidableEq

def MetricId.bareName (m : MetricId) : Bytes := m.name.take m.nameLen

def MetricId.forms (m : MetricId) : List (Uuid × Bytes) :=
  [(m.id, m.name), (m.id, m.bareName), (Uuid.zero, m.name), (Uuid.zero, m.bareName)]

def anyInterest {n : Nat} (v : Interests n) (seed : UInt16) : UInt16 :=
  (List.finRange n).foldl (fun has i => has ||| v i) seed

def takeEntry {n : Nat} (table : IdLevel n) (acc : Interests n × UInt16) (form : Uuid × Bytes) :
    Interests n × UInt16 :=
  match table.retrieve form.1 form.2 with
  | none => acc
  | some v => (v, anyInterest v acc.2)

def exactInterests {n : Nat} (table : IdLevel n) (m : MetricId) : Interests n × UInt16 :=
  m.forms.foldl (takeEntry table) (0, 0)

structure Lanes (n : Nat) (μ : Type) where
  queue : Fin n → List μ
  backlog : Fin n → UInt32

def enqueue {n : Nat} {μ : Type} (dropBacklogOver : Nat) (interests : Interests n) (message : μ)
    (lanes : Lanes n μ) (i : Fin n) : Lanes n μ :=
  if interests i > 0 then
    if dropBacklogOver ≠ 0 ∧ (lanes.backlog i).toNat > dropBacklogOver then lanes
    else ⟨Function.update lanes.queue i (lanes.queue i ++ [message]),
      Function.update lanes.backlog i (lanes.backlog i + 1)⟩
  else lanes

def distributeMessageWithInterests {n : Nat} {μ : Type} (dropBacklogOver : Nat)
    (interests : Interests n) (message : μ) (lanes : Lanes n μ) : Lanes n μ :=
  (List.finRange n).foldl (enqueue dropBacklogOver interests message) lanes

def distributeExact {n : Nat} (dropBacklogOver : Nat) (table : IdLevel n) (message : MetricId)
    (lanes : Lanes n MetricId) : Lanes n MetricId :=
  let (interests, hasInterests) := exactInterests table message
  if hasInterests ≠ 0 then distributeMessageWithInterests dropBacklogOver interests message lanes
  else lanes

section

variable {n : Nat}

theorem le_anyInterest_seed (v : Interests n) (seed : UInt16) (l : List (Fin n)) :
    seed ≠ 0 → l.foldl (fun has i => has ||| v i) seed ≠ 0 := by
  induction l generalizing seed with
  | nil => exact id
  | cons i l ih =>
    intro h
    apply ih
    intro hz
    rw [UInt16.or_eq_zero_iff] at hz
    exact h hz.1

theorem anyInterest_ne_zero {v : Interests n} {seed : UInt16} {i : Fin n} (h : v i ≠ 0) :
    anyInterest v seed ≠ 0 := by
  unfold anyInterest
  have hm := List.mem_finRange i
  generalize List.finRange n = l at hm
  induction l generalizing seed with
  | nil => exact absurd hm (by simp)
  | cons j l ih =>
    rw [List.foldl_cons]
    rcases List.mem_cons.mp hm with rfl | hm
    · apply le_anyInterest_seed
      intro hz
      rw [UInt16.or_eq_zero_iff] at hz
      exact h hz.2
    · exact ih hm

theorem takeEntry_has {table : IdLevel n} {acc : Interests n × UInt16} {form : Uuid × Bytes}
    (h : ∀ i, acc.1 i ≠ 0 → acc.2 ≠ 0) (i : Fin n) (hi : (takeEntry table acc form).1 i ≠ 0) :
    (takeEntry table acc form).2 ≠ 0 := by
  unfold takeEntry at hi ⊢
  cases hr : table.retrieve form.1 form.2 with
  | none =>
    rw [hr] at hi
    exact h i hi
  | some v =>
    rw [hr] at hi
    exact anyInterest_ne_zero hi

theorem foldl_takeEntry (table : IdLevel n) (l : List (Uuid × Bytes)) (acc : Interests n × UInt16)
    (h : ∀ i, acc.1 i ≠ 0 → acc.2 ≠ 0) :
    (l.foldl (takeEntry table) acc).1 =
        ((l.filterMap fun f => table.retrieve f.1 f.2).getLast?).getD acc.1 ∧
      ∀ i, (l.foldl (takeEntry table) acc).1 i ≠ 0 → (l.foldl (takeEntry table) acc).2 ≠ 0 := by
  induction l generalizing acc with
  | nil => exact ⟨rfl, h⟩
  | cons f l ih =>
    obtain ⟨hlast, hhas⟩ := ih (takeEntry table acc f) (takeEntry_has h)
    refine ⟨?_, hhas⟩
    rw [List.foldl_cons, hlast, takeEntry]
    cases hr : table.retrieve f.1 f.2 with
    | none => simp only [List.filterMap_cons, hr]
    | some v =>
      simp only [List.filterMap_cons, hr, List.getLast?_cons, Option.getD_some]

theorem queue_foldl_enqueue {μ : Type} (interests : Interests n) (message : μ) (l : List (Fin n))
    (hl : l.Nodup) (lanes : Lanes n μ) (i : Fin n) :
    (l.foldl (enqueue 0 interests message) lanes).queue i =
      lanes.queue i ++ if i ∈ l ∧ interests i > 0 then [message] else [] := by
  induction l generalizing lanes with
  | nil => simp
  | cons j l ih =>
    obtain ⟨hj, hl⟩ := List.nodup_cons.mp hl
    rw [List.foldl_cons, ih hl]
    by_cases hij : i = j
    · subst hij
      by_cases hi : interests i > 0 <;> simp [enqueue, hi, hj]
    · have hq : (enqueue 0 interests message lanes j).queue i = lanes.queue i := by
        unfold enqueue
        by_cases hj : interests j > 0 <;> simp [hj, hij]
      rw [hq]
      simp [hij]

theorem queue_distributeMessageWithInterests {μ : Type} (interests : Interests n) (message : μ)
    (lanes : Lanes n μ) (i : Fin n) :
    (distributeMessageWithInterests 0 interests message lanes).queue i =
      lanes.queue i ++ if interests i > 0 then [message] else [] := by
  rw [distributeMessageWithInterests, queue_foldl_enqueue _ _ _ (List.nodup_finRange n)]
  simp

def lastEntry (table : IdLevel n) (m : MetricId) : Option (Interests n) :=
  (m.forms.filterMap fun f => table.retrieve f.1 f.2).getLast?

theorem queue_distributeExact (table : IdLevel n) (m : MetricId) (lanes : Lanes n MetricId)
    (i : Fin n) :
    (distributeExact 0 table m lanes).queue i =
      lanes.queue i ++ if ((lastEntry table m).getD 0) i > 0 then [m] else [] := by
  obtain ⟨hlast, hhas⟩ := foldl_takeEntry table m.forms (0, 0) (by simp)
  unfold distributeExact exactInterests
  simp only
  rw [← lastEntry] at hlast
  split_ifs with hh hpos hpos
  · rw [queue_distributeMessageWithInterests, hlast, if_pos hpos]
  · rw [queue_distributeMessageWithInterests, hlast, if_neg hpos]
  · refine absurd (hhas i fun hz => ?_) hh
    rw [← hlast, hz] at hpos
    exact absurd hpos (by decide)
  · rw [List.append_nil]

def Interested (table : IdLevel n) (m : MetricId) (i : Fin n) : Prop :=
  ∃ form ∈ m.forms, ∃ v, table.retrieve form.1 form.2 = some v ∧ 0 < v i

structure ExactDelivery (table : IdLevel n) (m : MetricId) (lanes lanes' : Lanes n MetricId) :
    Prop where
  complete : ∀ i, Interested table m i → lanes'.queue i = lanes.queue i ++ [m]
  precise : ∀ i, ¬ Interested table m i → lanes'.queue i = lanes.queue i

theorem interested_of_lastEntry {table : IdLevel n} {m : MetricId} {i : Fin n}
    (h : ((lastEntry table m).getD 0) i > 0) : Interested table m i := by
  cases hl : lastEntry table m with
  | none =>
    rw [hl] at h
    exact absurd h (by simp)
  | some v =>
    rw [hl] at h
    obtain ⟨form, hf, hr⟩ := List.mem_filterMap.mp (List.mem_of_getLast? hl)
    exact ⟨form, hf, v, hr, h⟩

/-- Delivery is right exactly when every interested lane has its interest in the
entry found last. -/
theorem distributeExact_delivery_iff (table : IdLevel n) (m : MetricId) (lanes : Lanes n MetricId) :
    ExactDelivery table m lanes (distributeExact 0 table m lanes) ↔
      ∀ i, Interested table m i → ∃ v, lastEntry table m = some v ∧ 0 < v i := by
  constructor
  · intro h i hi
    have hq := queue_distributeExact table m lanes i
    rw [h.complete i hi] at hq
    split_ifs at hq with hpos
    · cases hl : lastEntry table m with
      | none =>
        rw [hl] at hpos
        exact absurd hpos (by simp)
      | some v =>
        rw [hl] at hpos
        exact ⟨v, rfl, hpos⟩
    · simp at hq
  · intro h
    refine ⟨fun i hi => ?_, fun i hi => ?_⟩
    · obtain ⟨v, hl, hpos⟩ := h i hi
      rw [queue_distributeExact, hl, Option.getD_some, if_pos hpos]
    · rw [queue_distributeExact, if_neg fun hpos => hi (interested_of_lastEntry hpos), List.append_nil]

end

theorem distributeExact_delivery_fails :
    ¬ ∀ (table : IdLevel 2) (m : MetricId) (lanes : Lanes 2 MetricId),
      ExactDelivery table m lanes (distributeExact 0 table m lanes) := by
  intro h
  let m : MetricId := ⟨1, List.Vector.replicate 16 1, [109, 124, 83, 84, 91, 93], 1⟩
  let first := (adjustMetricInterestOnThread (n := 2) (fun _ => none) 0 m.id m.name 1).1
  let table := (adjustMetricInterestOnThread first 1 m.id m.bareName 1).1
  have hd := (h table m ⟨fun _ => [], fun _ => 0⟩).complete 0
    ⟨(m.id, m.name), by simp [MetricId.forms], Function.update 0 0 1, rfl, by decide⟩
  exact absurd hd (by decide)

end Reconnoiter
