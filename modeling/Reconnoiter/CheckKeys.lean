import Reconnoiter.CheckLoader
import Reconnoiter.Decimal

/-! The keys under which LMDB holds a check, and the check read from them. -/

namespace Reconnoiter

def uuidSize : Nat := 16

def checkAttributeType : UInt8 := 65

def checkConfigType : UInt8 := 67

def networkShort (n : Nat) : Bytes := [.ofNat (n / 256), .ofNat (n % 256)]

def readNetworkShort : Bytes → Nat
  | hi :: lo :: _ => hi.toNat * 256 + lo.toNat
  | _ => 0

def shortLen (s : Bytes) : Nat := s.length % 65536

/-- `noit_lmdb_make_check_key`; no namespace is an empty one. -/
def makeCheckKey (id : Uuid) (type : UInt8) (ns key : Bytes) : Bytes :=
  id.toList ++ type :: (networkShort (shortLen ns) ++ (ns.take (shortLen ns) ++
    (networkShort (shortLen key) ++ key.take (shortLen key))))

structure CheckData where
  id : Bytes
  type : UInt8
  ns : Bytes
  key : Bytes
deriving DecidableEq

def checkDataFromKey (key : Bytes) : CheckData :=
  let rest := key.drop uuidSize
  let nsLen := readNetworkShort (rest.drop 1)
  let afterNs := rest.drop (3 + nsLen)
  { id := key.take uuidSize
    type := rest.headD 0
    ns := (rest.drop 3).take nsLen
    key := (afterNs.drop 2).take (readNetworkShort afterNs) }

theorem readNetworkShort_append {n : Nat} (h : n < 65536) (rest : Bytes) :
    readNetworkShort (networkShort n ++ rest) = n := by
  change (UInt8.ofNat (n / 256)).toNat * 256 + (UInt8.ofNat (n % 256)).toNat = n
  rw [UInt8.toNat_ofNat', UInt8.toNat_ofNat']
  omega

/-- A key is taken apart into what it was made of, if both lengths fit two bytes. -/
theorem checkDataFromKey_make (id : Uuid) (type : UInt8) {ns key : Bytes} (hns : ns.length < 65536)
    (hkey : key.length < 65536) :
    checkDataFromKey (makeCheckKey id type ns key) = ⟨id.toList, type, ns, key⟩ := by
  have hn : shortLen ns = ns.length := Nat.mod_eq_of_lt hns
  have hk : shortLen key = key.length := Nat.mod_eq_of_lt hkey
  have hid : id.toList.length = uuidSize := id.toList_length
  unfold makeCheckKey
  rw [hn, hk, List.take_length, List.take_length]
  have hdrop : ∀ rest, (id.toList ++ rest).drop uuidSize = rest := fun rest => by
    rw [← hid, List.drop_left]
  have htake : ∀ rest, (id.toList ++ rest).take uuidSize = id.toList := fun rest => by
    rw [← hid, List.take_left]
  have hns' : ∀ rest, readNetworkShort ((type :: (networkShort ns.length ++ rest)).drop 1) = ns.length :=
    readNetworkShort_append hns
  have hrest : ∀ rest, (type :: (networkShort ns.length ++ rest)).drop 3 = rest := fun _ => rfl
  have hafter : (type :: (networkShort ns.length ++ (ns ++ (networkShort key.length ++ key)))).drop
      (3 + ns.length) = networkShort key.length ++ key := by
    rw [← List.drop_drop, hrest, List.drop_left]
  have hkey' : (networkShort key.length ++ key).drop 2 = key := rfl
  simp only [checkDataFromKey, hdrop, htake, hns', hafter, hrest, readNetworkShort_append hkey, hkey',
    List.take_left, List.take_length]
  rfl

inductive CheckAttr where
  | target
  | module
  | name
  | filterset
  | seq
  | period
  | timeout
  | resolveRtype
  | oncheck
  | deleted
  | transientMinPeriod
  | transientPeriodGranularity
deriving DecidableEq

namespace CheckAttr

def all : List CheckAttr :=
  [target, module, name, filterset, seq, period, timeout, resolveRtype, oncheck, deleted, transientMinPeriod,
    transientPeriodGranularity]

def text : CheckAttr → Bytes
  | target => [116, 97, 114, 103, 101, 116]
  | module => [109, 111, 100, 117, 108, 101]
  | name => [110, 97, 109, 101]
  | filterset => [102, 105, 108, 116, 101, 114, 115, 101, 116]
  | seq => [115, 101, 113]
  | period => [112, 101, 114, 105, 111, 100]
  | timeout => [116, 105, 109, 101, 111, 117, 116]
  | resolveRtype => [114, 101, 115, 111, 108, 118, 101, 95, 114, 116, 121, 112, 101]
  | oncheck => [111, 110, 99, 104, 101, 99, 107]
  | deleted => deletedText
  | transientMinPeriod =>
    [116, 114, 97, 110, 115, 105, 101, 110, 116, 95, 109, 105, 110, 95, 112, 101, 114, 105, 111, 100]
  | transientPeriodGranularity =>
    [116, 114, 97, 110, 115, 105, 101, 110, 116, 95, 112, 101, 114, 105, 111, 100,
      95, 103, 114, 97, 110, 117, 108,
      97, 114, 105, 116, 121]

def ofText (key : Bytes) : Option CheckAttr := all.find? (·.text = key)

theorem ofText_text (a : CheckAttr) : ofText a.text = some a := by
  cases a <;> decide

end CheckAttr

structure CheckRows where
  attr : CheckAttr → Option Bytes
  options : Config
  moptions : Nat → Option Config

def CheckRows.empty : CheckRows := ⟨fun _ => none, [], fun _ => none⟩

def hashStore (table : Config) (kv : Bytes × Bytes) : Config :=
  if kv.1 ∈ table.map Prod.fst then table else table ++ [kv]

def attrRow (a : CheckAttr) (row : CheckData × Bytes) : Option Bytes :=
  if row.1.type = checkAttributeType ∧ CheckAttr.ofText row.1.key = some a then some row.2 else none

/-- One turn of the loop over a check's rows. The first value of an option is kept, the last of an
attribute. -/
def readRow (modules : List Bytes) (rows : CheckRows) (row : CheckData × Bytes) : CheckRows :=
  if row.1.type = checkAttributeType then
    match CheckAttr.ofText row.1.key with
    | none => rows
    | some a => { rows with attr := Function.update rows.attr a (some row.2) }
  else if row.1.type = checkConfigType then
    if row.1.ns = [] then { rows with options := hashStore rows.options (row.1.key, row.2) }
    else
      match modules.findIdx? (· = row.1.ns) with
      | none => rows
      | some i =>
        { rows with
          moptions := Function.update rows.moptions i
            (some (hashStore ((rows.moptions i).getD []) (row.1.key, row.2))) }
  else rows

def readRows (modules : List Bytes) (id : Uuid) (entries : List (Bytes × Bytes)) : CheckRows :=
  ((entries.map fun e => (checkDataFromKey e.1, e.2)).takeWhile (fun row => row.1.id = id.toList)).foldl
    (readRow modules) .empty

def CheckRows.check (modules : List Bytes) (rows : CheckRows) : LmdbCheck where
  target := rows.attr .target
  module := rows.attr .module
  name := rows.attr .name
  filterset := rows.attr .filterset
  seq := (stringbuf 256 (rows.attr .seq)).map strtoll
  period := (stringbuf 256 (rows.attr .period)).map atoi
  timeout := (stringbuf 256 (rows.attr .timeout)).map atoi
  oncheck := rows.attr .oncheck
  deleted := rows.attr .deleted
  resolveRtype := rows.attr .resolveRtype
  transientMinPeriod := (stringbuf 256 (rows.attr .transientMinPeriod)).map atoi
  transientPeriodGranularity := (stringbuf 256 (rows.attr .transientPeriodGranularity)).map atoi
  config := rows.options
  mconfigs := if modules = [] then none else some ((List.range modules.length).map rows.moptions)

def optionRow (row : CheckData × Bytes) : Option (Bytes × Bytes) :=
  if row.1.type = checkConfigType ∧ row.1.ns = [] then some (row.1.key, row.2) else none

def moduleRow (modules : List Bytes) (i : Nat) (row : CheckData × Bytes) : Option (Bytes × Bytes) :=
  if row.1.type = checkConfigType ∧ row.1.ns ≠ [] ∧ modules.findIdx? (· = row.1.ns) = some i then
    some (row.1.key, row.2)
  else none

section Rows

variable {modules : List Bytes}

theorem attr_readRow (rows : CheckRows) (row : CheckData × Bytes) (a : CheckAttr) :
    (readRow modules rows row).attr a = (attrRow a row).or (rows.attr a) := by
  unfold readRow attrRow
  by_cases ht : row.1.type = checkAttributeType
  · rw [if_pos ht]
    rcases hk : CheckAttr.ofText row.1.key with - | b
    · simp
    · by_cases hb : b = a
      · subst hb
        simp [ht]
      · simp [hb, Function.update_of_ne (Ne.symm hb)]
  · simp only [ht, false_and, if_false, Option.none_or]
    split
    · split
      · rfl
      · split <;> rfl
    · rfl

theorem attr_foldl (l : List (CheckData × Bytes)) (rows : CheckRows) (a : CheckAttr) :
    (l.foldl (readRow modules) rows).attr a = (l.filterMap (attrRow a)).getLast?.or (rows.attr a) := by
  induction l generalizing rows with
  | nil => rfl
  | cons row l ih =>
    rw [List.foldl_cons, ih, attr_readRow]
    rcases hr : attrRow a row with - | v
    · simp [hr]
    · rw [List.filterMap_cons_some hr, List.getLast?_cons]
      rcases (l.filterMap (attrRow a)).getLast? with - | w <;> rfl

theorem options_readRow (rows : CheckRows) (row : CheckData × Bytes) :
    (readRow modules rows row).options = (optionRow row).elim rows.options (hashStore rows.options) := by
  unfold readRow optionRow
  by_cases ht : row.1.type = checkAttributeType
  · have hc : row.1.type ≠ checkConfigType := fun h => absurd (ht.symm.trans h) (by decide)
    rw [if_pos ht, if_neg (fun h => hc h.1)]
    split <;> rfl
  · rw [if_neg ht]
    by_cases hc : row.1.type = checkConfigType
    · rw [if_pos hc]
      by_cases hn : row.1.ns = []
      · rw [if_pos hn, if_pos ⟨hc, hn⟩]
        rfl
      · rw [if_neg hn, if_neg (fun h => hn h.2)]
        split <;> rfl
    · rw [if_neg hc, if_neg (fun h => hc h.1)]
      rfl

theorem options_foldl (l : List (CheckData × Bytes)) (rows : CheckRows) :
    (l.foldl (readRow modules) rows).options = (l.filterMap optionRow).foldl hashStore rows.options := by
  induction l generalizing rows with
  | nil => rfl
  | cons row l ih =>
    rw [List.foldl_cons, ih, options_readRow]
    rcases hr : optionRow row with - | kv
    · rw [List.filterMap_cons_none hr]
      rfl
    · rw [List.filterMap_cons_some hr]
      rfl

theorem moptions_readRow (rows : CheckRows) (row : CheckData × Bytes) (i : Nat) :
    (readRow modules rows row).moptions i =
      (moduleRow modules i row).elim (rows.moptions i) fun kv =>
        some (hashStore ((rows.moptions i).getD []) kv) := by
  unfold readRow moduleRow
  by_cases ht : row.1.type = checkAttributeType
  · have hc : row.1.type ≠ checkConfigType := fun h => absurd (ht.symm.trans h) (by decide)
    rw [if_pos ht, if_neg (fun h => hc h.1)]
    split <;> rfl
  · rw [if_neg ht]
    by_cases hc : row.1.type = checkConfigType
    · rw [if_pos hc]
      by_cases hn : row.1.ns = []
      · rw [if_pos hn, if_neg (fun h => h.2.1 hn)]
        rfl
      · rw [if_neg hn]
        rcases hf : modules.findIdx? (· = row.1.ns) with - | k
        · simp
        · by_cases hk : k = i
          · subst hk
            simp [hc, hn]
          · simp [hk, Function.update_of_ne (Ne.symm hk)]
    · rw [if_neg hc, if_neg (fun h => hc h.1)]
      rfl

theorem moptions_foldl (l : List (CheckData × Bytes)) (rows : CheckRows) (i : Nat) :
    (l.foldl (readRow modules) rows).moptions i =
      if l.filterMap (moduleRow modules i) = [] then rows.moptions i
      else some ((l.filterMap (moduleRow modules i)).foldl hashStore ((rows.moptions i).getD [])) := by
  induction l generalizing rows with
  | nil => rfl
  | cons row l ih =>
    rw [List.foldl_cons, ih, moptions_readRow]
    rcases hr : moduleRow modules i row with - | kv
    · rw [List.filterMap_cons_none hr]
      rfl
    · rw [List.filterMap_cons_some hr, if_neg (List.cons_ne_nil _ _)]
      split
      · next hnil => simp [hnil]
      · rfl

/-- Options with different keys are all stored, in their order. -/
theorem foldl_hashStore {l table : Config} (h : ((table ++ l).map Prod.fst).Nodup) :
    l.foldl hashStore table = table ++ l := by
  induction l generalizing table with
  | nil => simp
  | cons kv l ih =>
    have hkv : kv.1 ∉ table.map Prod.fst := by
      rw [List.map_append, List.map_cons] at h
      intro hm
      exact (List.nodup_append.mp h).2.2 kv.1 hm kv.1 List.mem_cons_self rfl
    rw [List.foldl_cons, hashStore, if_neg hkv, ih (by simpa using h)]
    simp

end Rows

end Reconnoiter
