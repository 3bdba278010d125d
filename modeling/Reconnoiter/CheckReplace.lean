import Reconnoiter.CheckKeyOrder

/-! Replacing the rows of a check, as the two writers of whole checks do: each row written takes its key
from those found by the scan, and the keys left over are deleted. -/

namespace Reconnoiter

/-- Writes a row and strikes its key off the keys to be deleted. -/
def putXml {α : Type} (conf : List Bytes) : Option (Bytes × Bytes) → Txn Bytes Bytes α (List Bytes)
  | none => pure conf
  | some (key, val) => do
    putRow key val
    return conf.filter (· ≠ key)

def replaceRows (checkid : Uuid) (rows : List (Bytes × Bytes)) (t : Lmdb) : Lmdb :=
  (t.putAll rows).eraseAll ((checkKeysToHashTable t checkid).filter (· ∉ rows.map Prod.fst))

/-- A check has the written rows only, the last under each key, and all other checks keep theirs. -/
structure RowsReplaced (checkid : Uuid) (rows : List (Bytes × Bytes)) (t t' : Lmdb) : Prop where
  own : ∀ k, checkid.toList <+: k → t'.get k = OrderedTable.lastPut rows k
  others : ∀ k, ¬ checkid.toList <+: k → t'.get k = t.get k

section Replace

variable {α : Type} {id : Uuid}

theorem putXml_gives {row : Option (Bytes × Bytes)} (h : ∀ r, row = some r → badValsize r.1 = false)
    (conf : List Bytes) (t : Lmdb) :
    ∃ n, Gives (putXml conf row : Txn Bytes Bytes α (List Bytes)) t n
      (.ok (row.elim conf fun r => conf.filter (· ≠ r.1))
      (row.elim t fun r => t.put r.1 r.2)) := by
  cases row with
  | none => exact ⟨0, Gives.pure conf t⟩
  | some r => exact ⟨1, (putRow_gives r.2 t (h r rfl)).next (Gives.pure _ _)⟩

theorem putXml_refused {row : Bytes × Bytes} (h : badValsize row.1 = true) (conf : List Bytes) (t : Lmdb) :
    Gives (putXml conf (some row) : Txn Bytes Bytes α (List Bytes)) t 0 .fatal := by
  have hput : Gives (putRow row.1 row.2 : Txn Bytes Bytes α Unit) t 0 .fatal := by
    rw [putRow, h]
    exact Gives.refused t row.1 row.2
  exact hput.bind_fatal

theorem foldl_rows {ι : Type} (row : ι → Option (Bytes × Bytes)) (nodes : List ι)
    (conf : List Bytes) (t : Lmdb) :
    nodes.foldl (fun conf node => (row node).elim conf fun r => conf.filter (· ≠ r.1)) conf =
        conf.filter (· ∉ (nodes.filterMap row).map Prod.fst) ∧
      nodes.foldl (fun t node => (row node).elim t fun r => t.put r.1 r.2) t =
        t.putAll (nodes.filterMap row) := by
  induction nodes generalizing conf t with
  | nil => simp [OrderedTable.putAll]
  | cons node nodes ih =>
    rw [List.foldl_cons, List.foldl_cons]
    cases hr : row node with
    | none =>
      rw [List.filterMap_cons_none hr]
      exact ih conf t
    | some r =>
      obtain ⟨hconf, htable⟩ := ih (conf.filter (· ≠ r.1)) (t.put r.1 r.2)
      rw [List.filterMap_cons_some hr]
      refine ⟨hconf.trans ?_, htable⟩
      rw [List.filter_filter]
      refine List.filter_congr fun k _ => ?_
      rw [Bool.eq_iff_iff]
      simp only [Bool.and_eq_true, decide_eq_true_eq, List.map_cons, List.mem_cons, not_or]
      exact and_comm

theorem isPrefix_makeCheckKey (id : Uuid) (type : UInt8) (ns key : Bytes) :
    id.toList <+: makeCheckKey id type ns key :=
  List.prefix_append _ _

/-- The rows are replaced if every key written is one of the check. -/
theorem replaced_replaceRows {rows : List (Bytes × Bytes)} (hrows : ∀ k ∈ rows.map Prod.fst, id.toList <+: k)
    (t : Lmdb) : RowsReplaced id rows t (replaceRows id rows t) := by
  refine ⟨fun k hk => ?_, fun k hk => ?_⟩
  · rw [replaceRows, OrderedTable.get_eraseAll, OrderedTable.get_putAll]
    by_cases hwritten : k ∈ rows.map Prod.fst
    · obtain ⟨v, hv⟩ := Option.isSome_iff_exists.mp (OrderedTable.lastPut_isSome_iff.mpr hwritten)
      rw [if_neg (fun h => by simpa [hwritten] using (List.mem_filter.mp h).2), hv]
      rfl
    · have hnone : OrderedTable.lastPut rows k = none := by
        rw [← Option.not_isSome_iff_eq_none, OrderedTable.lastPut_isSome_iff]
        exact hwritten
      rw [hnone]
      -- a key of the check that is not written is left over, if it was there
      cases hget : t.get k with
      | none =>
        split_ifs <;> rfl
      | some v =>
        have hscan : k ∈ checkKeysToHashTable t id := mem_checkKeysToHashTable.mpr ⟨by rw [hget]; rfl, hk⟩
        rw [if_pos (List.mem_filter.mpr ⟨hscan, by simpa using hwritten⟩)]
  · have hkept : k ∉ (checkKeysToHashTable t id).filter (· ∉ rows.map Prod.fst) := fun h =>
      hk (mem_checkKeysToHashTable.mp (List.mem_filter.mp h).1).2
    have hnone : OrderedTable.lastPut rows k = none := by
      rw [← Option.not_isSome_iff_eq_none, OrderedTable.lastPut_isSome_iff]
      exact fun h => hk (hrows k h)
    rw [replaceRows, OrderedTable.get_eraseAll, if_neg hkept, OrderedTable.get_putAll, hnone]
    rfl

end Replace

end Reconnoiter
