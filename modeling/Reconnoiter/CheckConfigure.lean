import Reconnoiter.CheckReplace

/-! Storing a check that came as XML: its rows replace those that LMDB has for it. -/

namespace Reconnoiter

structure XmlNode where
  name : Bytes
  nsPrefix : Option Bytes
  firstAttr : Option (Option Bytes)
  content : Option Bytes

def configurableAttrs : List Bytes :=
  [CheckAttr.name.text, CheckAttr.target.text, CheckAttr.resolveRtype.text, CheckAttr.module.text,
    CheckAttr.period.text, CheckAttr.timeout.text, [100, 105, 115, 97, 98, 108, 101],
      CheckAttr.filterset.text,
    CheckAttr.seq.text, CheckAttr.transientMinPeriod.text, CheckAttr.transientPeriodGranularity.text]

namespace XmlNode

def attrRow (checkid : Uuid) (node : XmlNode) : Option (Bytes × Bytes) :=
  if node.name ∈ configurableAttrs then
    node.content.map fun val => (makeCheckKey checkid checkAttributeType [] node.name, val)
  else none

def configKey (node : XmlNode) : Bytes :=
  match node.firstAttr with
  | some value => value.getD []
  | none => node.name

def configRow (checkid : Uuid) (node : XmlNode) : Option (Bytes × Bytes) :=
  node.content.map fun val => (makeCheckKey checkid checkConfigType
    (node.nsPrefix.getD []) node.configKey, val)

end XmlNode

def oldSeqRefuses (oldSeq : Int) (v : Bytes) : Bool := oldSeq ≠ 0 && max (strtoll v) 0 ≤ oldSeq

def configureAttr (checkid : Uuid) (oldSeq : Int) (conf : List Bytes) (node : XmlNode) :
    Txn Bytes Bytes Int (List Bytes) := do
  -- The macro's continue ends its own do-while loop only: the number just written is compared below.
  let conf ← putXml conf (node.attrRow checkid)
  if node.name = CheckAttr.seq.text then
    match node.content with
    | none => Txn.fatal
    | some v => if oldSeqRefuses oldSeq v then Txn.abort (-1) else pure conf
  else pure conf

def configureNode (checkid : Uuid) (conf : List Bytes) (node : XmlNode) : Txn Bytes Bytes Int (List Bytes) :=
  putXml conf (node.configRow checkid)

def configureCheckTxn (checkid : Uuid) (a : List XmlNode) (c : Option (List XmlNode)) (oldSeq : Int)
    (conf : List Bytes) : Txn Bytes Bytes Int Int := do
  let conf ← a.foldlM (configureAttr checkid oldSeq) conf
  let conf ← (c.getD []).foldlM (configureNode checkid) conf
  conf.forM Txn.del
  return 0

/-- `noit_check_lmdb_configure_check`. A try that fails leaves the table as it was, so that each finds the
same keys. -/
def configureCheck (checkid : Uuid) (a : List XmlNode) (c : Option (List XmlNode)) (oldSeq : Int) (t : Lmdb)
    (rooms : List Nat) : Option (TxnResult Bytes Bytes Int) :=
  if oldSeq < 0 then some .fatal
  else transact (configureCheckTxn checkid a c oldSeq (checkKeysToHashTable t checkid)) t rooms

def xmlRows (checkid : Uuid) (a : List XmlNode) (c : Option (List XmlNode)) : List (Bytes × Bytes) :=
  a.filterMap (·.attrRow checkid) ++ (c.getD []).filterMap (·.configRow checkid)

/-- A key as the database has it: the uuid, the letter of the kind of row, and the namespace and the
name, each behind its length in two bytes. A text of 65536 bytes or more counts as what its length
leaves modulo that. -/
def IsCheckKey (id : Uuid) (letter : UInt8) (ns name key : Bytes) : Prop :=
  ∃ nsHigh nsLow high low : UInt8, nsHigh.toNat * 256 + nsLow.toNat = ns.length % 65536 ∧
    high.toNat * 256 + low.toNat = name.length % 65536 ∧
    key = id.toList ++ letter :: nsHigh :: nsLow :: (ns.take (ns.length % 65536) ++
      high :: low :: name.take (name.length % 65536))

/-- The row that a node of the XML stands for: an attribute node one of the known names has, under A,
and any node of the config, under C and the name in its first attribute, if it has one. -/
inductive XmlRow (id : Uuid) : XmlNode ⊕ XmlNode → Bytes → Bytes → Prop
  | attr {node : XmlNode} {key val : Bytes}
      (hname : node.name = [100, 105, 115, 97, 98, 108, 101] ∨
        ∃ a : CheckAttr, a ≠ .oncheck ∧ a ≠ .deleted ∧ node.name = a.text)
      (hval : node.content = some val) (hkey : IsCheckKey id 65 [] node.name key) :
        XmlRow id (.inl node) key val
  | config {node : XmlNode} {name key val : Bytes}
      (hname : node.firstAttr = none ∧ name = node.name ∨ ∃ value,
        node.firstAttr = some value ∧ name = value.getD [])
      (hval : node.content = some val) (hkey : IsCheckKey id 67 (node.nsPrefix.getD []) name key) :
      XmlRow id (.inr node) key val

def xmlNodes (a : List XmlNode) (c : Option (List XmlNode)) : List (XmlNode ⊕ XmlNode) :=
  a.map .inl ++ (c.getD []).map .inr

/-- Under the uuid stand the rows of the XML, the last node with a key giving its value, and nothing else. -/
structure CheckReplaced (id : Uuid) (a : List XmlNode) (c : Option (List XmlNode)) (t t' : Lmdb) : Prop where
  own : ∀ k v, id.toList <+: k → (t'.get k = some v ↔
    ∃ before node after, xmlNodes a c = before ++ node :: after ∧ XmlRow id node k v ∧
      ∀ n ∈ after, ∀ w, ¬ XmlRow id n k w)
  others : ∀ k, ¬ id.toList <+: k → t'.get k = t.get k

def AttrAccepted (oldSeq : Int) (node : XmlNode) : Prop :=
  node.name = CheckAttr.seq.text → ∃ v, node.content = some v ∧ (oldSeq = 0 ∨ oldSeq < strtoll v)

def ConfigAccepted (checkid : Uuid) (node : XmlNode) : Prop :=
  ∀ k v, XmlRow checkid (.inr node) k v → k.length ≤ 511

section Configure

variable {id : Uuid} {oldSeq : Int}

theorem badValsize_attrRow (node : XmlNode) {row : Bytes × Bytes} (h : node.attrRow id = some row) :
    badValsize row.1 = false := by
  have hlengths : ∀ name ∈ configurableAttrs, name.length ≤ 28 := by decide
  unfold XmlNode.attrRow at h
  split_ifs at h with hname
  obtain ⟨val, -, rfl⟩ := Option.map_eq_some_iff.mp h
  have hlen := hlengths node.name hname
  exact badValsize_makeCheckKey id checkAttributeType (by simp only [List.length_nil]; omega)

theorem isCheckKey_iff {id : Uuid} {letter : UInt8} {ns name key : Bytes} :
    IsCheckKey id letter ns name key ↔ key = makeCheckKey id letter ns name := by
  have hbytes : ∀ {n : Nat} {high low : UInt8}, n < 65536 → high.toNat * 256 + low.toNat = n →
      high = .ofNat (n / 256) ∧ low = .ofNat (n % 256) := by
    intro n high low hn h
    have hlow : low.toNat < 256 := low.toNat_lt
    have hhigh : n / 256 = high.toNat := by omega
    have hrest : n % 256 = low.toNat := by omega
    rw [hhigh, hrest, UInt8.ofNat_toNat, UInt8.ofNat_toNat]
    exact ⟨rfl, rfl⟩
  have hlt : ∀ s : Bytes, s.length % 65536 < 65536 := fun s => Nat.mod_lt _ (by omega)
  constructor
  · rintro ⟨nsHigh, nsLow, high, low, hns, hname, rfl⟩
    obtain ⟨rfl, rfl⟩ := hbytes (hlt ns) hns
    obtain ⟨rfl, rfl⟩ := hbytes (hlt name) hname
    rfl
  · rintro rfl
    have hread : ∀ s : Bytes, (UInt8.ofNat (s.length % 65536 / 256)).toNat * 256 +
        (UInt8.ofNat (s.length % 65536 % 256)).toNat = s.length % 65536 := fun s =>
      readNetworkShort_append (hlt s) []
    exact ⟨_, _, _, _, hread ns, hread name, rfl⟩

theorem mem_configurableAttrs {name : Bytes} :
    name ∈ configurableAttrs ↔ name = [100, 105, 115, 97, 98, 108, 101] ∨
      ∃ a : CheckAttr, a ≠ .oncheck ∧ a ≠ .deleted ∧ name = a.text := by
  constructor
  · intro h
    simp only [configurableAttrs, List.mem_cons, List.not_mem_nil, or_false] at h
    rcases h with h | h | h | h | h | h | h | h | h | h | h
    all_goals first
      | exact .inl h
      | exact .inr ⟨_, by decide, by decide, h⟩
  · rintro (rfl | ⟨a, hon, hdel, rfl⟩)
    · decide
    · cases a with
      | oncheck => exact absurd rfl hon
      | deleted => exact absurd rfl hdel
      | _ => decide

theorem xmlRow_iff {id : Uuid} {node : XmlNode ⊕ XmlNode} {k v : Bytes} :
    XmlRow id node k v ↔ Sum.elim (·.attrRow id) (·.configRow id) node = some (k, v) := by
  constructor
  · rintro (⟨hname, hval, hkey⟩ | ⟨hname, hval, hkey⟩)
    · rw [isCheckKey_iff.mp hkey]
      simp only [Sum.elim_inl, XmlNode.attrRow, if_pos (mem_configurableAttrs.mpr hname), hval]
      rfl
    · rw [isCheckKey_iff.mp hkey]
      rcases hname with ⟨hattr, rfl⟩ | ⟨value, hattr, rfl⟩ <;>
        simp only [Sum.elim_inr, XmlNode.configRow, XmlNode.configKey, hattr, hval] <;> rfl
  · intro h
    rcases node with node | node
    · simp only [Sum.elim_inl, XmlNode.attrRow] at h
      split_ifs at h with hname
      obtain ⟨val, hval, heq⟩ := Option.map_eq_some_iff.mp h
      cases heq
      exact .attr (mem_configurableAttrs.mp hname) hval (isCheckKey_iff.mpr rfl)
    · obtain ⟨val, hval, heq⟩ := Option.map_eq_some_iff.mp h
      cases heq
      refine .config ?_ hval (isCheckKey_iff.mpr rfl)
      unfold XmlNode.configKey
      cases hattr : node.firstAttr with
      | none => exact .inl ⟨rfl, rfl⟩
      | some value => exact .inr ⟨value, rfl, rfl⟩

theorem xmlRows_eq (id : Uuid) (a : List XmlNode) (c : Option (List XmlNode)) :
    xmlRows id a c = (xmlNodes a c).filterMap (Sum.elim (·.attrRow id) (·.configRow id)) := by
  rw [xmlNodes, List.filterMap_append, List.filterMap_map, List.filterMap_map]
  rfl

theorem oldSeqRefuses_eq_false {v : Bytes} (h : oldSeq = 0 ∨ oldSeq < strtoll v) :
    oldSeqRefuses oldSeq v = false := by
  rw [oldSeqRefuses, Bool.and_eq_false_iff, decide_eq_false_iff_not, decide_eq_false_iff_not]
  omega

theorem badValsize_configRow {node : XmlNode} (h : ConfigAccepted id node) {row : Bytes × Bytes}
    (hrow : node.configRow id = some row) : badValsize row.1 = false := by
  have hlen := h row.1 row.2 (xmlRow_iff.mpr hrow)
  obtain ⟨val, -, rfl⟩ := Option.map_eq_some_iff.mp hrow
  have hne : makeCheckKey id checkConfigType (node.nsPrefix.getD []) node.configKey ≠ [] := by
    intro hnil
    have hid : id.toList = [] := List.prefix_nil.mp (hnil ▸ isPrefix_makeCheckKey id _ _ _)
    have hlength := id.toList_length
    rw [hid] at hlength
    cases hlength
  rw [badValsize, Bool.or_eq_false_iff, decide_eq_false_iff_not, decide_eq_false_iff_not]
  exact ⟨hne, not_lt.mpr hlen⟩

theorem configureAttr_accepted {node : XmlNode} (h : AttrAccepted oldSeq node)
    (conf : List Bytes) (t : Lmdb) :
    ∃ n, Gives (configureAttr id oldSeq conf node) t n
      (.ok ((node.attrRow id).elim conf fun r => conf.filter (· ≠ r.1))
        ((node.attrRow id).elim t fun r => t.put r.1 r.2)) := by
  obtain ⟨n, hput⟩ := putXml_gives (fun _ => badValsize_attrRow node) conf t
  refine ⟨n + 0, hput.bind ?_⟩
  by_cases hseq : node.name = CheckAttr.seq.text
  · obtain ⟨v, hv, hnew⟩ := h hseq
    rw [if_pos hseq, hv]
    simp only [oldSeqRefuses_eq_false hnew]
    exact Gives.pure _ _
  · rw [if_neg hseq]
    exact Gives.pure _ _

theorem configureAttr_stops {node : XmlNode} (h : ¬ AttrAccepted oldSeq node)
    (hnonneg : 0 ≤ oldSeq) (conf : List Bytes) (t : Lmdb) :
    ∃ n o, o.Stops {-1} ∧ Gives (configureAttr id oldSeq conf node) t n o := by
  obtain ⟨n, hput⟩ := putXml_gives (fun _ => badValsize_attrRow node) conf t
  have hseq : node.name = CheckAttr.seq.text := by
    by_contra hne
    exact h fun heq => absurd heq hne
  cases hv : node.content with
  | none =>
    refine ⟨n + 0, .fatal, .inr rfl, hput.bind ?_⟩
    rw [if_pos hseq, hv]
    exact Gives.fatal _
  | some v =>
    have hold : oldSeqRefuses oldSeq v = true := by
      have hnew : ¬ (oldSeq = 0 ∨ oldSeq < strtoll v) := fun hnew => h fun _ => ⟨v, hv, hnew⟩
      rw [oldSeqRefuses, Bool.and_eq_true, decide_eq_true_eq, decide_eq_true_eq]
      omega
    refine ⟨n + 0, .abort (-1), .inl ⟨-1, rfl, rfl⟩, hput.bind ?_⟩
    rw [if_pos hseq, hv]
    simp only [hold]
    exact Gives.abort _ _

theorem configureNode_stops {node : XmlNode} (h : ¬ ConfigAccepted id node) (conf : List Bytes) (t : Lmdb) :
    ∃ n o, o.Stops {-1} ∧ Gives (configureNode id conf node) t n o := by
  unfold ConfigAccepted at h
  push Not at h
  obtain ⟨k, v, hrow, hlong⟩ := h
  refine ⟨0, .fatal, .inr rfl, ?_⟩
  have hconfig : node.configRow id = some (k, v) := xmlRow_iff.mp hrow
  rw [configureNode, hconfig]
  exact putXml_refused (Bool.or_eq_true_iff.mpr (.inr (decide_eq_true hlong))) conf t

theorem attrLoop_accepted {a : List XmlNode} (h : ∀ node ∈ a, AttrAccepted oldSeq node) (conf : List Bytes)
    (t : Lmdb) :
    ∃ n, Gives (a.foldlM (configureAttr id oldSeq) conf) t n
      (.ok (conf.filter (· ∉ (a.filterMap (·.attrRow id)).map Prod.fst))
        (t.putAll (a.filterMap (·.attrRow id)))) := by
  obtain ⟨n, hn⟩ := Gives.foldlM_ok (fun node hnode => configureAttr_accepted (h node hnode)) conf t
  obtain ⟨hconf, htable⟩ := foldl_rows (·.attrRow id) a conf t
  rw [hconf, htable] at hn
  exact ⟨n, hn⟩

theorem configLoop_accepted {c : List XmlNode} (h : ∀ node ∈ c, ConfigAccepted id node) (conf : List Bytes)
    (t : Lmdb) :
    ∃ n, Gives (c.foldlM (configureNode id) conf) t n
      (.ok (conf.filter (· ∉ (c.filterMap (·.configRow id)).map Prod.fst))
        (t.putAll (c.filterMap (·.configRow id)))) := by
  obtain ⟨n, hn⟩ := Gives.foldlM_ok (fun node hnode => putXml_gives fun _ =>
    badValsize_configRow (h node hnode)) conf t
  obtain ⟨hconf, htable⟩ := foldl_rows (·.configRow id) c conf t
  rw [hconf, htable] at hn
  exact ⟨n, hn⟩

structure Accepted (checkid : Uuid) (a : List XmlNode) (c : Option (List XmlNode)) (oldSeq : Int) : Prop where
  nonneg : 0 ≤ oldSeq
  attrs : ∀ node ∈ a, AttrAccepted oldSeq node
  config : ∀ node ∈ c.getD [], ConfigAccepted checkid node

variable {a : List XmlNode} {c : Option (List XmlNode)}

theorem configureCheckTxn_accepted (h : Accepted id a c oldSeq) (t : Lmdb) :
    ∃ n, Gives (configureCheckTxn id a c oldSeq (checkKeysToHashTable t id)) t n
      (.ok 0 (replaceRows id (xmlRows id a c) t)) := by
  let left := (checkKeysToHashTable t id).filter (· ∉ (xmlRows id a c).map Prod.fst)
  have hleft : ((checkKeysToHashTable t id).filter (· ∉ (a.filterMap (·.attrRow id)).map Prod.fst)).filter
      (· ∉ ((c.getD []).filterMap (·.configRow id)).map Prod.fst) = left := by
    rw [List.filter_filter]
    refine List.filter_congr fun k _ => ?_
    rw [Bool.eq_iff_iff]
    simp only [xmlRows, Bool.and_eq_true, decide_eq_true_eq, List.map_append, List.mem_append, not_or]
    exact and_comm
  obtain ⟨n₁, ha⟩ := attrLoop_accepted h.attrs (checkKeysToHashTable t id) t
  obtain ⟨n₂, hc⟩ := configLoop_accepted h.config
    ((checkKeysToHashTable t id).filter (· ∉ (a.filterMap (·.attrRow id)).map Prod.fst))
    (t.putAll (a.filterMap (·.attrRow id)))
  rw [hleft, ← OrderedTable.putAll_append] at hc
  obtain ⟨n₃, hdel⟩ := Gives.forM_del (α := Int) left (t.putAll (xmlRows id a c))
  have hrest : Gives (do left.forM Txn.del; return (0 : Int)) (t.putAll (xmlRows id a c)) (n₃ + 0)
      (.ok 0 (replaceRows id (xmlRows id a c) t)) :=
    hdel.next (Gives.pure 0 _)
  exact ⟨_, ha.bind (hc.bind hrest)⟩

theorem isPrefix_of_mem_xmlRows {k : Bytes} (h : k ∈ (xmlRows id a c).map Prod.fst) : id.toList <+: k := by
  obtain ⟨row, hrow, rfl⟩ := List.mem_map.mp h
  rcases List.mem_append.mp hrow with hrow | hrow
  · obtain ⟨node, -, hnode⟩ := List.mem_filterMap.mp hrow
    unfold XmlNode.attrRow at hnode
    split_ifs at hnode
    obtain ⟨val, -, rfl⟩ := Option.map_eq_some_iff.mp hnode
    exact isPrefix_makeCheckKey _ _ _ _
  · obtain ⟨node, -, hnode⟩ := List.mem_filterMap.mp hrow
    obtain ⟨val, -, rfl⟩ := Option.map_eq_some_iff.mp hnode
    exact isPrefix_makeCheckKey _ _ _ _

theorem configureCheckTxn_stops (h : ¬ Accepted id a c oldSeq) (hold : 0 ≤ oldSeq) (t : Lmdb) :
    ∃ n o, o.Stops {-1} ∧ Gives (configureCheckTxn id a c oldSeq (checkKeysToHashTable t id)) t n o := by
  by_cases ha : ∀ node ∈ a, AttrAccepted oldSeq node
  · have hc : ∃ node ∈ c.getD [], ¬ ConfigAccepted id node := by
      by_contra hnot
      push Not at hnot
      exact h ⟨hold, ha, hnot⟩
    obtain ⟨n, hattrs⟩ := @attrLoop_accepted id oldSeq a ha (checkKeysToHashTable t id) t
    obtain ⟨n', o, ho, hconfig⟩ :=
      Gives.foldlM_stops (fun node hnode => putXml_gives fun _ => badValsize_configRow hnode)
      (fun node => configureNode_stops) hc _ (t.putAll (a.filterMap (·.attrRow id)))
    obtain ⟨o', ho', hrest⟩ := hconfig.bind_stops ho
    exact ⟨n + n', o', ho', hattrs.bind hrest⟩
  · push Not at ha
    obtain ⟨n, o, ho, hattrs⟩ :=
      Gives.foldlM_stops (fun node hnode => @configureAttr_accepted id oldSeq node hnode)
      (fun node hnode => configureAttr_stops hnode hold) ha (checkKeysToHashTable t id) t
    obtain ⟨o', ho', hrest⟩ := hattrs.bind_stops ho
    exact ⟨n, o', ho', hrest⟩

theorem configureCheck_result (id : Uuid) (a : List XmlNode) (c : Option (List XmlNode))
    (oldSeq : Int) (t : Lmdb) :
    ∃ n r, (∀ rooms, (∃ room ∈ rooms, n < room) → configureCheck id a c oldSeq t rooms = some r) ∧
      (∀ rooms r', configureCheck id a c oldSeq t rooms = some r' → r' = r) ∧
      (Accepted id a c oldSeq ∧ r = .done 0 (replaceRows id (xmlRows id a c) t) ∨
        ¬ Accepted id a c oldSeq ∧ (r = .fatal ∨ r = .done (-1) t)) := by
  by_cases hold : oldSeq < 0
  · refine ⟨0, .fatal, fun rooms _ => if_pos hold, fun rooms r' h => ?_, .inr ⟨fun h => ?_, .inl rfl⟩⟩
    · rw [configureCheck, if_pos hold] at h
      exact (Option.some.inj h).symm
    · exact absurd h.nonneg (not_le.mpr hold)
  · have hrun : ∀ rooms, configureCheck id a c oldSeq t rooms =
        transact (configureCheckTxn id a c oldSeq (checkKeysToHashTable t id)) t rooms := fun _ => if_neg hold
    simp only [hrun]
    by_cases h : Accepted id a c oldSeq
    · obtain ⟨n, hn⟩ := configureCheckTxn_accepted h t
      exact ⟨n, _, fun rooms => hn.transact_eq, fun rooms r' => hn.of_transact, .inl ⟨h, rfl⟩⟩
    · obtain ⟨n, o, ho, hn⟩ := configureCheckTxn_stops h (not_lt.mp hold) t
      refine ⟨n, _, fun rooms => hn.transact_eq, fun rooms r' => hn.of_transact, .inr ⟨h, ?_⟩⟩
      rcases ho with ⟨ret, rfl, rfl⟩ | rfl
      · exact .inr rfl
      · exact .inl rfl

theorem get_rows_iff (id : Uuid) (a : List XmlNode) (c : Option (List XmlNode)) (k v : Bytes) :
    OrderedTable.lastPut (xmlRows id a c) k = some v ↔
      ∃ before node after, xmlNodes a c = before ++ node :: after ∧ XmlRow id node k v ∧
        ∀ n ∈ after, ∀ w, ¬ XmlRow id n k w := by
  rw [xmlRows_eq, OrderedTable.lastPut_filterMap_eq_some_iff]
  simp only [xmlRow_iff, ne_eq]

theorem CheckReplaced.get_eq {t t' : Lmdb} (h : CheckReplaced id a c t t')
    {k : Bytes} (hk : id.toList <+: k) :
    t'.get k = OrderedTable.lastPut (xmlRows id a c) k :=
  Option.ext fun v => (h.own k v hk).trans (get_rows_iff id a c k v).symm

theorem checkReplaced_replaceRows (id : Uuid) (a : List XmlNode) (c : Option (List XmlNode)) (t : Lmdb) :
    CheckReplaced id a c t (replaceRows id (xmlRows id a c) t) := by
  have hrows := replaced_replaceRows (fun k => @isPrefix_of_mem_xmlRows id a c k) t
  refine ⟨fun k v hk => ?_, hrows.others⟩
  rw [hrows.own k hk]
  exact get_rows_iff id a c k v

/-- A configuration that succeeds replaces the rows of the check by those of the XML and leaves all
other rows, and one that fails changes nothing. It succeeds exactly for the XML that is accepted, given
the room. -/
theorem configure_check_replaces (id : Uuid) (a : List XmlNode) (c : Option (List XmlNode))
    (oldSeq : Int) (t : Lmdb) :
    (∀ rooms ret t', configureCheck id a c oldSeq t rooms = some (.done ret t') →
      ret = 0 ∧ CheckReplaced id a c t t' ∨ ret = -1 ∧ t' = t) ∧
    ∃ n, ∀ rooms, (∃ room ∈ rooms, n < room) → ∃ r, configureCheck id a c oldSeq t rooms = some r ∧
      (Accepted id a c oldSeq ↔ ∃ t', r = .done 0 t') := by
  obtain ⟨n, r, hreturns, hunique, hr⟩ := configureCheck_result id a c oldSeq t
  refine ⟨fun rooms ret t' hrun => ?_, n, fun rooms hroom => ⟨r, hreturns rooms hroom, ?_⟩⟩
  · have heq := hunique rooms _ hrun
    rcases hr with ⟨-, rfl⟩ | ⟨-, rfl | rfl⟩
    · cases heq
      exact .inl ⟨rfl, checkReplaced_replaceRows id a c t⟩
    · cases heq
    · cases heq
      exact .inr ⟨rfl, rfl⟩
  · rcases hr with ⟨h, rfl⟩ | ⟨h, rfl | rfl⟩
    · exact ⟨fun _ => ⟨_, rfl⟩, fun _ => h⟩
    · exact ⟨fun h' => absurd h' h, fun ⟨_, h'⟩ => by cases h'⟩
    · exact ⟨fun h' => absurd h' h, fun ⟨_, h'⟩ => by cases h'⟩

def sevenId : Uuid := List.Vector.replicate 16 7

def namedCheck : List XmlNode :=
  [⟨CheckAttr.name.text, none, none, some [120]⟩, ⟨CheckAttr.seq.text, none, none, some [50]⟩]

def urlConfig : Option (List XmlNode) := some [⟨[117, 114, 108], none, none, some [121]⟩]

def staleKey : Bytes := sevenId.toList ++ [67, 0, 0, 0, 1, 113]

def otherKey : Bytes := List.replicate 16 8 ++ [65, 0, 0, 0, 3, 115, 101, 113]

def storedBefore : Lmdb := (OrderedTable.empty.put staleKey [49]).put otherKey [51]

/-- A check with the name x, the sequence number 2 and a config: its three rows are in the table, its
old config is gone, and another check has the row it had. -/
theorem configure_check_replaces_named :
    ∃ rooms t', configureCheck sevenId namedCheck urlConfig 1 storedBefore rooms = some (.done 0 t') ∧
      t'.get (sevenId.toList ++ [65, 0, 0, 0, 4, 110, 97, 109, 101]) = some [120] ∧
      t'.get (sevenId.toList ++ [65, 0, 0, 0, 3, 115, 101, 113]) = some [50] ∧
      t'.get (sevenId.toList ++ [67, 0, 0, 0, 3, 117, 114, 108]) = some [121] ∧
      t'.get staleKey = none ∧ t'.get otherKey = some [51] := by
  obtain ⟨hdone, n, hends⟩ := configure_check_replaces sevenId namedCheck urlConfig 1 storedBefore
  have haccepted : Accepted sevenId namedCheck urlConfig 1 := by
    refine ⟨by decide, ?_, ?_⟩
    · simp only [namedCheck, List.forall_mem_cons, List.not_mem_nil, false_implies, implies_true, and_true]
      exact ⟨fun h => absurd h (by decide), fun _ => ⟨_, rfl, .inr (by decide)⟩⟩
    · simp only [urlConfig, Option.getD_some, List.forall_mem_singleton]
      intro k v hrow
      cases xmlRow_iff.mp hrow
      decide
  obtain ⟨r, hrun, hok⟩ := hends [n + 1] ⟨n + 1, List.mem_singleton.mpr rfl, n.lt_succ_self⟩
  obtain ⟨t', rfl⟩ := hok.mp haccepted
  obtain ⟨-, hreplaced⟩ | ⟨hret, -⟩ := hdone _ _ _ hrun
  · refine ⟨[n + 1], t', hrun, ?_, ?_, ?_, ?_, ?_⟩
    · rw [hreplaced.get_eq (List.prefix_append _ _)]
      decide
    · rw [hreplaced.get_eq (List.prefix_append _ _)]
      decide
    · rw [hreplaced.get_eq (List.prefix_append _ _)]
      decide
    · rw [hreplaced.get_eq (k := staleKey) (List.prefix_append _ _)]
      decide
    · rw [hreplaced.others otherKey (by decide)]
      decide
  · cases hret

end Configure

end Reconnoiter
