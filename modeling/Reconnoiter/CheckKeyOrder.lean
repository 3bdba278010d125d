import Reconnoiter.CheckKeys
import Reconnoiter.OrderedTable

/-! The keys of checks in the order of the store, and the scan over the keys of one check. -/

namespace Reconnoiter

abbrev Lmdb := OrderedTable Bytes Bytes

def makeCheckKeyForIterating (id : Uuid) : Bytes := id.toList

def checkKeysToHashTable (t : Lmdb) (id : Uuid) : List Bytes :=
  ((t.scanFrom (makeCheckKeyForIterating id)).takeWhile fun e =>
    (checkDataFromKey e.1).id = id.toList).map Prod.fst

def attrKey (id : Uuid) (a : CheckAttr) : Bytes := makeCheckKey id checkAttributeType [] a.text

def storedSeq (t : Lmdb) (id : Uuid) : Option Int := (t.get (attrKey id .seq)).map strtoll

def badValsize (k : Bytes) : Bool := k = [] || 511 < k.length

def putRow {α : Type} (k v : Bytes) : Txn Bytes Bytes α Unit := Txn.put (badValsize k) k v

structure KeyInput where
  id : Uuid
  type : UInt8
  ns : Bytes
  key : Bytes
deriving DecidableEq

namespace KeyInput

def make (x : KeyInput) : Bytes := makeCheckKey x.id x.type x.ns x.key

def data (x : KeyInput) : CheckData := ⟨x.id.toList, x.type, x.ns, x.key⟩

def Short (x : KeyInput) : Prop := x.ns.length < 65536 ∧ x.key.length < 65536

end KeyInput

theorem take_eq_iff_isPrefix (id : Uuid) (k : Bytes) : k.take uuidSize = id.toList ↔ id.toList <+: k := by
  have hid : id.toList.length = uuidSize := id.toList_length
  rw [List.prefix_iff_eq_take, hid]
  exact eq_comm

theorem checkKeysToHashTable_eq (t : Lmdb) (id : Uuid) :
    checkKeysToHashTable t id = (t.entries.filter fun e => id.toList.isPrefixOf e.1).map Prod.fst := by
  have hfirst : ∀ k : Bytes, id.toList.isPrefixOf k = true → makeCheckKeyForIterating id ≤ k := by
    intro k hk
    obtain ⟨r, rfl⟩ := List.isPrefixOf_iff_prefix.mp hk
    exact le_append _ r
  have hconvex : ∀ a b : Bytes, makeCheckKeyForIterating id ≤ a → a < b → id.toList.isPrefixOf b = true →
      id.toList.isPrefixOf a = true := by
    intro a b hle hlt hb
    obtain ⟨r, rfl⟩ := List.isPrefixOf_iff_prefix.mp hb
    exact List.isPrefixOf_iff_prefix.mpr (isPrefix_of_between hle hlt)
  have hid : ∀ e : Bytes × Bytes, decide ((checkDataFromKey e.1).id = id.toList) =
    id.toList.isPrefixOf e.1 := by
    intro e
    rw [Bool.eq_iff_iff, decide_eq_true_iff, List.isPrefixOf_iff_prefix, ← take_eq_iff_isPrefix]
    rfl
  rw [checkKeysToHashTable]
  simp only [hid]
  rw [OrderedTable.takeWhile_scanFrom t hfirst hconvex]

theorem mem_checkKeysToHashTable {t : Lmdb} {id : Uuid} {k : Bytes} :
    k ∈ checkKeysToHashTable t id ↔ (t.get k).isSome ∧ id.toList <+: k := by
  rw [checkKeysToHashTable_eq, List.mem_map]
  constructor
  · rintro ⟨⟨k, v⟩, hmem, rfl⟩
    obtain ⟨hmem, hid⟩ := List.mem_filter.mp hmem
    rw [OrderedTable.mem_entries_iff.mp hmem]
    exact ⟨rfl, List.isPrefixOf_iff_prefix.mp hid⟩
  · rintro ⟨hget, hid⟩
    obtain ⟨v, hv⟩ := Option.isSome_iff_exists.mp hget
    exact ⟨(k, v), List.mem_filter.mpr ⟨OrderedTable.mem_entries_iff.mpr hv,
      List.isPrefixOf_iff_prefix.mpr hid⟩, rfl⟩

namespace KeyInput

variable {x y : KeyInput}

theorem isPrefix_make (x : KeyInput) (id : Uuid) : id.toList <+: x.make ↔ x.id = id := by
  have hlen : id.toList.length = x.id.toList.length := by rw [x.id.toList_length, id.toList_length]
  unfold make makeCheckKey
  constructor
  · rintro ⟨r, hr⟩
    exact (List.Vector.toList_injective (List.append_inj_left hr hlen)).symm
  · rintro rfl
    exact List.prefix_append _ _

theorem data_injective (h : x.data = y.data) : x = y := by
  obtain ⟨id, type, ns, key⟩ := x
  obtain ⟨id', type', ns', key'⟩ := y
  simp only [data, CheckData.mk.injEq] at h
  obtain ⟨hid, rfl, rfl, rfl⟩ := h
  rw [List.Vector.toList_injective hid]

theorem Short.checkDataFromKey (h : x.Short) : checkDataFromKey x.make = x.data :=
  checkDataFromKey_make x.id x.type h.1 h.2

theorem Short.eq_of_make (hx : x.Short) (hy : y.Short) (h : y.make = x.make) : y = x := by
  apply data_injective
  rw [← hy.checkDataFromKey, ← hx.checkDataFromKey, h]

end KeyInput

theorem readNetworkShort_lt (s : Bytes) : readNetworkShort s < 65536 := by
  unfold readNetworkShort
  split
  · next hi lo _ =>
    have hhi := hi.toNat_lt
    have hlo := lo.toNat_lt
    omega
  · omega

theorem short_of_checkDataFromKey {x : KeyInput} {k : Bytes} (h : checkDataFromKey k = x.data) : x.Short := by
  have hns : x.ns = (checkDataFromKey k).ns := by rw [h]; rfl
  have hkey : x.key = (checkDataFromKey k).key := by rw [h]; rfl
  refine ⟨?_, ?_⟩
  · rw [hns]
    exact (List.length_take_le _ _).trans_lt (readNetworkShort_lt _)
  · rw [hkey]
    exact (List.length_take_le _ _).trans_lt (readNetworkShort_lt _)

theorem CheckAttr.length_text_le (a : CheckAttr) : a.text.length ≤ 28 := by
  cases a <;> decide

theorem attrKey_injective {id : Uuid} : Function.Injective (attrKey id) := by
  intro a b h
  have hshort : ∀ c : CheckAttr, KeyInput.Short ⟨id, checkAttributeType, [], c.text⟩ := fun c =>
    ⟨Nat.zero_lt_succ _, c.length_text_le.trans_lt (by decide)⟩
  have htext : a.text = b.text := congrArg KeyInput.key ((hshort b).eq_of_make (hshort a) h)
  have hof := congrArg CheckAttr.ofText htext
  rw [CheckAttr.ofText_text, CheckAttr.ofText_text] at hof
  exact Option.some.inj hof

theorem length_makeCheckKey (id : Uuid) (type : UInt8) {ns key : Bytes} (hns : ns.length < 65536)
    (hkey : key.length < 65536) : (makeCheckKey id type ns key).length = 21 + ns.length + key.length := by
  have hid : id.toList.length = 16 := id.toList_length
  have hn : shortLen ns = ns.length := Nat.mod_eq_of_lt hns
  have hk : shortLen key = key.length := Nat.mod_eq_of_lt hkey
  simp only [makeCheckKey, networkShort, hn, hk, List.take_length, List.length_append, List.length_cons,
    List.length_nil, hid]
  omega

theorem badValsize_makeCheckKey (id : Uuid) (type : UInt8) {ns key : Bytes}
    (h : ns.length + key.length ≤ 490) :
    badValsize (makeCheckKey id type ns key) = false := by
  have hlen : (makeCheckKey id type ns key).length = 21 + ns.length + key.length :=
    length_makeCheckKey id type (by omega) (by omega)
  have hne : makeCheckKey id type ns key ≠ [] := List.ne_nil_of_length_pos (by omega)
  simp only [badValsize, hne, hlen, decide_false, Bool.false_or, decide_eq_false_iff_not]
  omega

theorem length_attrKey (id : Uuid) (a : CheckAttr) : (attrKey id a).length = 21 + a.text.length :=
  length_makeCheckKey id checkAttributeType (Nat.zero_lt_succ _) (a.length_text_le.trans_lt (by decide))

theorem badValsize_attrKey (id : Uuid) (a : CheckAttr) : badValsize (attrKey id a) = false := by
  have htext := a.length_text_le
  exact badValsize_makeCheckKey id checkAttributeType (by simp only [List.length_nil]; omega)

theorem putRow_gives {α : Type} {k : Bytes} (v : Bytes) (t : Lmdb) (h : badValsize k = false) :
    Gives (putRow k v : Txn Bytes Bytes α Unit) t 1 (.ok () (t.put k v)) := by
  rw [putRow, h]
  exact Gives.put t k v

/-- A key can be decoded exactly when the lengths of its names fit their fields. Such keys differ when
what they were made from does, and the scan for a uuid meets the keys of that uuid and no others. -/
theorem check_keys_faithful_iff (x : KeyInput) :
    (checkDataFromKey x.make = x.data ∧ (∀ y : KeyInput, y.Short → y.make = x.make → y = x) ∧
        ∀ (t : Lmdb) (id : Uuid),
          checkKeysToHashTable t id = (t.entries.filter fun e => id.toList.isPrefixOf e.1).map Prod.fst ∧
          (x.make ∈ checkKeysToHashTable t id ↔ (t.get x.make).isSome ∧ x.id = id)) ↔
      x.Short := by
  constructor
  · rintro ⟨hdata, -, -⟩
    exact short_of_checkDataFromKey hdata
  · intro hx
    refine ⟨hx.checkDataFromKey, fun y hy => hx.eq_of_make hy, fun t id => ⟨checkKeysToHashTable_eq t id, ?_⟩⟩
    rw [mem_checkKeysToHashTable, x.isPrefix_make]

def longKeyInput : KeyInput := ⟨⟨List.replicate 16 7, rfl⟩, checkConfigType, [], List.replicate 65537 97⟩

def shortKeyInput : KeyInput := { longKeyInput with key := [97] }

theorem long_key_made_short :
    longKeyInput.make = shortKeyInput.make ∧ longKeyInput ≠ shortKeyInput ∧
      checkDataFromKey longKeyInput.make = shortKeyInput.data := by
  have hlen : longKeyInput.key.length = 65537 := List.length_replicate
  have hmake : longKeyInput.make = shortKeyInput.make := by
    have hshort : shortLen longKeyInput.key = shortLen shortKeyInput.key := by rw [shortLen, hlen]; rfl
    have htake : longKeyInput.key.take 1 = shortKeyInput.key.take 1 :=
      List.take_replicate.trans rfl
    unfold KeyInput.make makeCheckKey
    rw [hshort]
    exact congrArg (fun k => _ ++ _ :: (_ ++ (_ ++ (_ ++ k)))) htake
  refine ⟨hmake, ?_, ?_⟩
  · intro h
    rw [h] at hlen
    exact absurd hlen (by decide)
  · rw [hmake]
    exact KeyInput.Short.checkDataFromKey ⟨by decide, by decide⟩

end Reconnoiter
