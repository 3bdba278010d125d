import Reconnoiter.CheckKeyOrder

/-! Marking a check deleted in LMDB, with the next sequence number. -/

namespace Reconnoiter

def bumpSeq (seq : Int) : Int := if 0 ≤ seq then (seq + 1).bmod (2 ^ 64) else 1

/-- The second write, by what was found under the key for `seq`. The bytes behind the literal `"1"` are
whatever the program has there. -/
def putSeq (behind : List.Vector UInt8 5) (checkid : Uuid) : Option Bytes → Txn Bytes Bytes Int Int
  | none => do
    -- The size set to 1 is the key's; that of the data is still the one of "deleted".
    putRow ((attrKey checkid .seq).take 1) ([49, 0] ++ behind.toList)
    return -1
  | some v => do
    putRow (attrKey checkid .seq) (decimalInt (bumpSeq (strtoll v)))
    return (bumpSeq (strtoll v)).bmod (2 ^ 32)

def markDeletedTxn (behind : List.Vector UInt8 5) (checkid : Uuid) : Txn Bytes Bytes Int Int := do
  putRow (attrKey checkid .deleted) deletedText
  putSeq behind checkid (← Txn.get (attrKey checkid .seq))

def bumpSeqAndMarkDeleted (behind : List.Vector UInt8 5) (checkid : Uuid) (t : Lmdb) (rooms : List Nat) :
    Option (TxnResult Bytes Bytes Int) :=
  transact (markDeletedTxn behind checkid) t rooms

def nextSeq : Option Int → Int
  | none => 1
  | some seq => if seq < 0 then 1 else seq + 1

structure MarkedDeleted (t t' : Lmdb) (id : Uuid) (returned : Int) : Prop where
  deleted : t'.get (attrKey id .deleted) = some deletedText
  seq : storedSeq t' id = some (nextSeq (storedSeq t id))
  returned : returned = nextSeq (storedSeq t id)
  others : ∀ k, k ≠ attrKey id .deleted → k ≠ attrKey id .seq → t'.get k = t.get k

section Deletion

variable {behind : List.Vector UInt8 5} {id : Uuid} {t : Lmdb} {rooms : List Nat}

theorem bumpSeq_eq {seq : Int} (h : seq < 2 ^ 63 - 1) : bumpSeq seq = nextSeq (some seq) := by
  change (if 0 ≤ seq then (seq + 1).bmod (2 ^ 64) else 1) = if seq < 0 then 1 else seq + 1
  by_cases hneg : seq < 0
  · rw [if_pos hneg, if_neg (by omega)]
  · rw [if_neg hneg, if_pos (by omega), Int.bmod_eq_of_le (by norm_num; omega) (by norm_num; omega)]

theorem nextSeq_pos (seq : Int) : 1 ≤ nextSeq (some seq) := by
  change 1 ≤ if seq < 0 then 1 else seq + 1
  split_ifs <;> omega

theorem markDeletedTxn_gives {v : Option Bytes} {r : Int} {k w : Bytes} (hv : t.get (attrKey id .seq) = v)
    (hk : badValsize k = false) (hput : putSeq behind id v = do putRow k w; return r) :
    Gives (markDeletedTxn behind id) t 2 (.ok r ((t.put (attrKey id .deleted) deletedText).put k w)) := by
  have hne : attrKey id .seq ≠ attrKey id .deleted := fun h => by cases attrKey_injective h
  have hget : Gives (Txn.get (attrKey id .seq) : Txn Bytes Bytes Int _)
    (t.put (attrKey id .deleted) deletedText) 0
      (.ok v (t.put (attrKey id .deleted) deletedText)) := by
    have h := Gives.get (α := Int) (attrKey id .seq) (t.put (attrKey id .deleted) deletedText)
    rwa [OrderedTable.get_put, if_neg hne, hv] at h
  have hlast : Gives (putSeq behind id v) (t.put (attrKey id .deleted) deletedText) 1
      (.ok r ((t.put (attrKey id .deleted) deletedText).put k w)) := by
    rw [hput]
    exact (putRow_gives w _ hk).next (Gives.pure r _)
  exact (putRow_gives _ t (badValsize_attrKey id .deleted)).next (hget.bind hlast)

theorem badValsize_take_one (id : Uuid) (a : CheckAttr) : badValsize ((attrKey id a).take 1) = false := by
  have hlen : ((attrKey id a).take 1).length = 1 := by
    rw [List.length_take, length_attrKey]
    omega
  have hne : (attrKey id a).take 1 ≠ [] := List.ne_nil_of_length_eq_add_one hlen
  simp [badValsize, hne, hlen]

theorem markDeleted_absent (h : t.get (attrKey id .seq) = none) (hroom : ∃ room ∈ rooms, 2 < room) :
    bumpSeqAndMarkDeleted behind id t rooms = some (.done (-1)
      ((t.put (attrKey id .deleted) deletedText).put ((attrKey id .seq).take 1)
        ([49, 0] ++ behind.toList))) :=
  (markDeletedTxn_gives h (badValsize_take_one id .seq) rfl).transact_eq hroom

theorem markDeleted_present {v : Bytes} (h : t.get (attrKey id .seq) = some v)
    (hroom : ∃ room ∈ rooms, 2 < room) :
    bumpSeqAndMarkDeleted behind id t rooms = some (.done ((bumpSeq (strtoll v)).bmod (2 ^ 32))
      ((t.put (attrKey id .deleted) deletedText).put (attrKey id .seq) (decimalInt (bumpSeq (strtoll v))))) :=
  (markDeletedTxn_gives h (badValsize_attrKey id .seq) rfl).transact_eq hroom

theorem not_markedDeleted_absent {r : Int} {k w : Bytes} (h : t.get (attrKey id .seq) = none)
    (hk : k ≠ attrKey id .seq) :
    ¬ MarkedDeleted t ((t.put (attrKey id .deleted) deletedText).put k w) id r := by
  intro hm
  have hne : attrKey id .seq ≠ attrKey id .deleted := fun h => by cases attrKey_injective h
  have hseq := hm.seq
  rw [storedSeq, OrderedTable.get_put, if_neg (Ne.symm hk), OrderedTable.get_put, if_neg hne, h] at hseq
  cases hseq

theorem markedDeleted_present {v : Bytes} (h : t.get (attrKey id .seq) = some v)
    (hv : strtoll v < 2 ^ 31 - 1) :
    MarkedDeleted t ((t.put (attrKey id .deleted) deletedText).put (attrKey id .seq)
      (decimalInt (bumpSeq (strtoll v)))) id ((bumpSeq (strtoll v)).bmod (2 ^ 32)) := by
  have hne : attrKey id .deleted ≠ attrKey id .seq := fun h => by cases attrKey_injective h
  have hbump : bumpSeq (strtoll v) = nextSeq (storedSeq t id) := by
    rw [bumpSeq_eq (by omega), storedSeq, h]
    rfl
  have hrange : 1 ≤ nextSeq (storedSeq t id) ∧ nextSeq (storedSeq t id) < 2 ^ 31 := by
    rw [storedSeq, h]
    refine ⟨nextSeq_pos _, ?_⟩
    change (if strtoll v < 0 then 1 else strtoll v + 1) < 2 ^ 31
    split_ifs <;> omega
  refine ⟨?_, ?_, ?_, ?_⟩
  · rw [OrderedTable.get_put, if_neg hne, OrderedTable.get_put, if_pos rfl]
  · rw [storedSeq, OrderedTable.get_put, if_pos rfl, hbump, Option.map_some,
      strtoll_decimalInt (by omega) (by omega)]
  · rw [hbump]
    exact Int.bmod_eq_of_le (by norm_num; omega) (by norm_num; omega)
  · intro k hdel hseq
    rw [OrderedTable.get_put, if_neg hseq, OrderedTable.get_put, if_neg hdel]

/-- Whenever the map gets the room, a check is marked as it should be exactly when it has a sequence
number whose successor is an `int`. -/
theorem mark_deleted_iff (behind : List.Vector UInt8 5) (id : Uuid) (t : Lmdb) :
    (∀ rooms : List Nat, (∃ room ∈ rooms, 2 < room) →
        ∃ returned t', bumpSeqAndMarkDeleted behind id t rooms = some (.done returned t') ∧
          MarkedDeleted t t' id returned) ↔
      ∃ seq, storedSeq t id = some seq ∧ seq < 2 ^ 31 - 1 := by
  constructor
  · intro h
    obtain ⟨returned, t', hrun, hm⟩ := h [3] ⟨3, List.mem_singleton_self 3, by decide⟩
    cases hv : t.get (attrKey id .seq) with
    | none =>
      rw [markDeleted_absent hv ⟨3, List.mem_singleton_self 3, by decide⟩] at hrun
      obtain ⟨rfl, rfl⟩ := TxnResult.done.inj (Option.some.inj hrun)
      refine absurd hm (not_markedDeleted_absent hv ?_)
      intro hk
      have hlen := congrArg List.length hk
      rw [List.length_take, length_attrKey] at hlen
      omega
    | some v =>
      rw [markDeleted_present hv ⟨3, List.mem_singleton_self 3, by decide⟩] at hrun
      obtain ⟨rfl, rfl⟩ := TxnResult.done.inj (Option.some.inj hrun)
      refine ⟨strtoll v, by rw [storedSeq, hv]; rfl, ?_⟩
      -- an int is below 2^31, and what it should be is above the old number
      have hreturned := hm.returned
      have hint : (bumpSeq (strtoll v)).bmod (2 ^ 32) < 2 ^ 31 := Int.bmod_lt (by norm_num)
      have hnext : strtoll v + 1 ≤ nextSeq (storedSeq t id) := by
        rw [storedSeq, hv]
        change strtoll v + 1 ≤ if strtoll v < 0 then 1 else strtoll v + 1
        split_ifs <;> omega
      omega
  · rintro ⟨seq, hseq, hlt⟩ rooms hroom
    obtain ⟨v, hv, rfl⟩ := Option.map_eq_some_iff.mp hseq
    exact ⟨_, _, markDeleted_present hv hroom, markedDeleted_present hv hlt⟩

def unnumberedId : Uuid := List.Vector.replicate 16 7

def unnumberedCheck : Lmdb := OrderedTable.empty.put (attrKey unnumberedId .target) [104]

theorem unnumbered_check_marked :
    ∃ t', bumpSeqAndMarkDeleted ⟨[0, 0, 0, 0, 0], rfl⟩ unnumberedId unnumberedCheck [3] =
      some (.done (-1) t') ∧
      storedSeq t' unnumberedId = none ∧ unnumberedCheck.get [7] = none ∧
      t'.get [7] = some [49, 0, 0, 0, 0, 0, 0] := by
  have habsent : unnumberedCheck.get (attrKey unnumberedId .seq) = none := by decide +kernel
  refine ⟨_, markDeleted_absent habsent ⟨3, List.mem_singleton_self 3, by decide⟩, ?_, ?_, ?_⟩
  · decide +kernel
  · decide +kernel
  · decide +kernel

end Deletion

end Reconnoiter
