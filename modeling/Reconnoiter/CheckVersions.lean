import Reconnoiter.CheckConvert
import Reconnoiter.CheckReplace

/-! Converting an XML check into a database that may have the check already, in an older or a newer
version. -/

namespace Reconnoiter

abbrev ConvertTxn := Txn Bytes Bytes (Except ConvertError Bool)

def convertTxn (rows : List (Bytes × Bytes)) (conf : List Bytes) : ConvertTxn (Except ConvertError Bool) := do
  let conf ← rows.foldlM (fun conf row => putXml conf (some row)) conf
  conf.forM Txn.del
  return .ok true

/-- `noit_check_lmdb_convert_one_xml_check_to_lmdb`. The uuid that the stored sequence number is looked
up with is the content that `checkid` has before the uuid of the definition is parsed into it. The
result tells whether the check was written or passed over; the source returns 0 for both. -/
def convertXmlCheck (ut : UuidText) (modules : List Bytes) (uninitialized : Uuid)
    (sec : CheckSection) (t : Lmdb)
    (rooms : List Nat) : Option (TxnResult Bytes Bytes (Except ConvertError Bool)) :=
  match sec.toConvert ut ((storedSeq t uninitialized).getD (-1)) with
  | .error e => some (.done (.error e) t)
  | .ok none => some (.done (.ok false) t)
  | .ok (some uuid) =>
    transact (convertTxn (sec.encodedRows ut modules uuid) (checkKeysToHashTable t uuid)) t rooms

structure RespectsVersions (ut : UuidText) (modules : List Bytes) (uninitialized : Uuid) (sec : CheckSection)
    (t : Lmdb) : Prop where
  newer_kept : ∀ uuid seq, sec.checkid ut = some uuid → storedSeq t uuid = some seq → sec.seqOrZero < seq →
    ∀ rooms r t', convertXmlCheck ut modules uninitialized sec t rooms = some (.done r t') →
      ∀ k, uuid.toList <+: k → t'.get k = t.get k
  read_back : ∀ uuid, sec.checkid ut = some uuid →
    ∀ rooms t', convertXmlCheck ut modules uninitialized sec t rooms = some (.done (.ok true) t') →
      storedSeq t' uuid = some sec.seqOrZero

structure Written (ut : UuidText) (modules : List Bytes) (uninitialized : Uuid)
    (sec : CheckSection) (t : Lmdb) (uuid : Uuid) : Prop where
  checkid : sec.checkid ut = some uuid
  lookup : (storedSeq t uninitialized).getD (-1) ≤ sec.seqOrZero
  accepted : sec.refusal = none
  keys : ∀ row ∈ sec.encodedRows ut modules uuid, badValsize row.1 = false

structure VersionFits (sec : CheckSection) (t : Lmdb) (uuid : Uuid) : Prop where
  newest : ∀ seq, storedSeq t uuid = some seq → seq ≤ sec.seqOrZero
  above : -10 ^ 14 < sec.seqOrZero
  below : sec.seqOrZero < 10 ^ 15

section Rows

variable {ut : UuidText} {modules : List Bytes} {sec : CheckSection} {uuid : Uuid}

theorem type_of_makeCheckKey_eq {id : Uuid} {ty ty' : UInt8} {ns ns' key key' : Bytes}
    (h : makeCheckKey id ty ns key = makeCheckKey id ty' ns' key') : ty = ty' :=
  (List.cons.inj (List.append_cancel_left h)).1

theorem type_configRows {ns : Bytes} {c : Config} {row : CheckData × Bytes} (h : row ∈ configRows uuid ns c) :
    row.1.type = checkConfigType := by
  obtain ⟨kv, -, rfl⟩ := List.mem_map.mp h
  rfl

theorem type_moduleRows {mconfigs : List (Option Config)} {row : CheckData × Bytes}
    (h : row ∈ moduleRows uuid modules mconfigs) : row.1.type = checkConfigType := by
  obtain ⟨m, -, hrow⟩ := List.mem_flatMap.mp h
  exact type_configRows hrow

theorem mem_attrRows {row : CheckData × Bytes} :
    row ∈ sec.attrRows ut uuid ↔
      ∃ a v, sec.storedAttr ut uuid a = some v ∧
        row = (⟨uuid.toList, checkAttributeType, [], a.text⟩, v) := by
  unfold CheckSection.attrRows
  rw [List.mem_filterMap]
  constructor
  · rintro ⟨a, -, hrow⟩
    obtain ⟨v, hv, rfl⟩ := Option.map_eq_some_iff.mp hrow
    exact ⟨a, v, hv, rfl⟩
  · rintro ⟨a, v, hv, rfl⟩
    exact ⟨a, by cases a <;> decide, by rw [hv]; rfl⟩

theorem lastPut_seq (ut : UuidText) (modules : List Bytes) (sec : CheckSection) (uuid : Uuid) :
    OrderedTable.lastPut (sec.encodedRows ut modules uuid) (attrKey uuid .seq) =
      some ((decimalInt sec.seqOrZero).take 15) := by
  apply OrderedTable.lastPut_of_unique
  · refine List.mem_map.mpr ⟨_, List.mem_append_left _
      (List.mem_append_left _ (mem_attrRows.mpr ⟨.seq, _, rfl, rfl⟩)), rfl⟩
  · intro w hw
    obtain ⟨row, hrow, henc⟩ := List.mem_map.mp hw
    obtain ⟨hkey, rfl⟩ := Prod.mk.inj henc
    have hconfig : row.1.type ≠ checkConfigType := by
      intro htype
      have heq := type_of_makeCheckKey_eq hkey
      rw [htype] at heq
      exact absurd heq (by decide)
    rcases List.mem_append.mp hrow with hrow | hrow
    · rcases List.mem_append.mp hrow with hrow | hrow
      · obtain ⟨a, v, hv, rfl⟩ := mem_attrRows.mp hrow
        obtain rfl : a = .seq := attrKey_injective hkey
        exact (Option.some.inj hv).symm
      · exact absurd (type_configRows hrow) hconfig
    · exact absurd (type_moduleRows hrow) hconfig

theorem isPrefix_of_mem_encodedRows {k : Bytes} (h : k ∈ (sec.encodedRows ut modules uuid).map Prod.fst) :
    uuid.toList <+: k := by
  obtain ⟨row, hrow, rfl⟩ := List.mem_map.mp h
  obtain ⟨data, -, rfl⟩ := List.mem_map.mp hrow
  exact isPrefix_makeCheckKey _ _ _ _

end Rows

section Convert

variable {ut : UuidText} {modules : List Bytes} {uninitialized : Uuid}
    {sec : CheckSection} {t : Lmdb} {uuid : Uuid}

theorem convertTxn_gives {rows : List (Bytes × Bytes)}
    (h : ∀ row ∈ rows, badValsize row.1 = false) (uuid : Uuid) (t : Lmdb) :
    ∃ n, Gives (convertTxn rows (checkKeysToHashTable t uuid)) t n
      (.ok (.ok true) (replaceRows uuid rows t)) := by
  have hput : ∀ row ∈ rows, ∀ (conf : List Bytes) (t : Lmdb), ∃ n, Gives
      (putXml conf (some row) : ConvertTxn (List Bytes)) t n
        (.ok (conf.filter (· ≠ row.1)) (t.put row.1 row.2)) :=
    fun row hrow => putXml_gives fun r hr => Option.some.inj hr ▸ h row hrow
  obtain ⟨n, hloop⟩ := Gives.foldlM_ok hput (checkKeysToHashTable t uuid) t
  obtain ⟨hconf, htable⟩ := foldl_rows some rows (checkKeysToHashTable t uuid) t
  rw [List.filterMap_some] at hconf htable
  have hleft : rows.foldl (fun conf row => conf.filter (· ≠ row.1)) (checkKeysToHashTable t uuid) =
      (checkKeysToHashTable t uuid).filter (· ∉ rows.map Prod.fst) := hconf
  have hall : rows.foldl (fun t row => t.put row.1 row.2) t = t.putAll rows := htable
  rw [hleft, hall] at hloop
  obtain ⟨n', hdel⟩ := Gives.forM_del (α := Except ConvertError Bool)
    ((checkKeysToHashTable t uuid).filter (· ∉ rows.map Prod.fst)) (t.putAll rows)
  exact ⟨_, hloop.bind (hdel.next (Gives.pure (Except.ok true) _))⟩

theorem convertTxn_fatal {rows : List (Bytes × Bytes)} (h : ¬ ∀ row ∈ rows, badValsize row.1 = false)
    (conf : List Bytes) (t : Lmdb) : ∃ n, Gives (convertTxn rows conf) t n .fatal := by
  have hgood : ∀ row : Bytes × Bytes, badValsize row.1 = false → ∀ (conf : List Bytes) (t : Lmdb), ∃ n, Gives
      (putXml conf (some row) : ConvertTxn (List Bytes)) t n
        (.ok (conf.filter (· ≠ row.1)) (t.put row.1 row.2)) :=
    fun row hrow => putXml_gives fun r hr => Option.some.inj hr ▸ hrow
  have hbad : ∀ row : Bytes × Bytes, ¬ badValsize row.1 = false → ∀ (conf : List Bytes) (t : Lmdb), ∃ n o,
      TxnOutcome.Stops ∅ o ∧ Gives (putXml conf (some row) : ConvertTxn (List Bytes)) t n o :=
    fun row hrow conf t => ⟨0, .fatal, .inr rfl, putXml_refused (Bool.eq_true_of_not_eq_false hrow) conf t⟩
  push Not at h
  obtain ⟨n, o, ho, hloop⟩ := Gives.foldlM_stops hgood hbad h conf t
  rcases ho with ⟨a, ha, -⟩ | rfl
  · exact absurd ha (Set.notMem_empty a)
  · exact ⟨n, hloop.bind_fatal⟩

theorem Written.run (h : Written ut modules uninitialized sec t uuid) (rooms : List Nat) :
    convertXmlCheck ut modules uninitialized sec t rooms =
      transact (convertTxn (sec.encodedRows ut modules uuid) (checkKeysToHashTable t uuid)) t rooms := by
  rw [convertXmlCheck, toConvert_eq_some_iff.mpr ⟨h.checkid, h.lookup, h.accepted⟩]

theorem convertXmlCheck_of_not_written (h : ∀ uuid, ¬ Written ut modules uninitialized sec t uuid)
    {rooms : List Nat} {r : Except ConvertError Bool} {t' : Lmdb}
    (hrun : convertXmlCheck ut modules uninitialized sec t rooms = some (.done r t')) :
    t' = t ∧ r ≠ .ok true := by
  unfold convertXmlCheck at hrun
  split at hrun
  · cases hrun
    exact ⟨rfl, by simp⟩
  · cases hrun
    exact ⟨rfl, by simp⟩
  · next uuid hto =>
    obtain ⟨hid, hlookup, href⟩ := toConvert_eq_some_iff.mp hto
    have hkeys : ¬ ∀ row ∈ sec.encodedRows ut modules uuid, badValsize row.1 = false :=
      fun hkeys => h uuid ⟨hid, hlookup, href, hkeys⟩
    obtain ⟨n, hfatal⟩ := convertTxn_fatal hkeys (checkKeysToHashTable t uuid) t
    cases hfatal.of_transact hrun

/-- Into an empty database the conversion puts the pairs of `convertOneXmlCheck`, and nothing else. -/
theorem convertXmlCheck_empty {written : List (Bytes × Bytes)} (uninitialized : Uuid)
    (h : convertOneXmlCheck ut modules sec = .ok (uuid, written)) :
    ∃ rooms, convertXmlCheck ut modules uninitialized sec OrderedTable.empty rooms =
      some (.done (.ok true) (OrderedTable.empty.putAll written)) := by
  obtain ⟨hto, rfl, hkeys⟩ := convertOneXmlCheck_ok h
  obtain ⟨hid, hseq, href⟩ := toConvert_eq_some_iff.mp hto
  have hw : Written ut modules uninitialized sec OrderedTable.empty uuid := by
    refine ⟨hid, hseq, href, fun row hrow => ?_⟩
    have hne : row.1 ≠ [] := by
      obtain ⟨data, -, rfl⟩ := List.mem_map.mp hrow
      simp [encodeRow, makeCheckKey]
    simpa [badValsize, hne] using hkeys row hrow
  obtain ⟨n, hgives⟩ := convertTxn_gives hw.keys uuid OrderedTable.empty
  refine ⟨[n + 1], ?_⟩
  rw [hw.run, hgives.transact_eq ⟨n + 1, List.mem_singleton_self _, Nat.lt_succ_self n⟩]
  rfl

theorem storedSeq_replaceRows (ut : UuidText) (modules : List Bytes) (sec : CheckSection)
    (uuid : Uuid) (t : Lmdb) :
    storedSeq (replaceRows uuid (sec.encodedRows ut modules uuid) t) uuid =
      some (strtoll ((decimalInt sec.seqOrZero).take 15)) := by
  have hrows : RowsReplaced uuid (sec.encodedRows ut modules uuid) t _ :=
    replaced_replaceRows (fun _ => isPrefix_of_mem_encodedRows) t
  rw [storedSeq, hrows.own (attrKey uuid .seq) (isPrefix_makeCheckKey _ _ _ _), lastPut_seq]
  rfl

/-- The conversion respects the sequence numbers unless it writes a definition that is older than the
stored one or has a number of more than fifteen characters. -/
theorem conversion_respects_versions_iff (ut : UuidText) (modules : List Bytes) (uninitialized : Uuid)
    (sec : CheckSection) (t : Lmdb) :
    RespectsVersions ut modules uninitialized sec t ↔
      ∀ uuid, Written ut modules uninitialized sec t uuid → VersionFits sec t uuid := by
  constructor
  · intro h uuid hw
    obtain ⟨n, hgives⟩ := convertTxn_gives hw.keys uuid t
    have hrun : convertXmlCheck ut modules uninitialized sec t [n + 1] = some (.done (.ok true)
        (replaceRows uuid (sec.encodedRows ut modules uuid) t)) := by
      rw [hw.run]
      exact hgives.transact_eq ⟨n + 1, List.mem_singleton_self _, Nat.lt_succ_self n⟩
    have hback := h.read_back uuid hw.checkid _ _ hrun
    have hcut : strtoll ((decimalInt sec.seqOrZero).take 15) = sec.seqOrZero := by
      rw [storedSeq_replaceRows] at hback
      exact Option.some.inj hback
    obtain ⟨habove, hbelow⟩ := (strtoll_take_eq_iff (by norm_num)).mp hcut
    refine ⟨fun seq hseq => ?_, habove, hbelow⟩
    by_contra hnewer
    have hkept := h.newer_kept uuid seq hw.checkid hseq (not_le.mp hnewer) _ _ _ hrun (attrKey uuid .seq)
      (isPrefix_makeCheckKey _ _ _ _)
    rw [storedSeq, hkept, ← storedSeq, hseq] at hback
    exact hnewer (Option.some.inj hback).le
  · intro h
    by_cases hw : ∃ uuid, Written ut modules uninitialized sec t uuid
    · obtain ⟨uuid, hw⟩ := hw
      have hfits := h uuid hw
      obtain ⟨n, hgives⟩ := convertTxn_gives hw.keys uuid t
      refine ⟨fun id seq hid hseq hnewer => ?_, fun id hid rooms t' hrun => ?_⟩
      · obtain rfl : uuid = id := Option.some.inj (hw.checkid.symm.trans hid)
        exact absurd (hfits.newest seq hseq) (not_le.mpr hnewer)
      · obtain rfl : uuid = id := Option.some.inj (hw.checkid.symm.trans hid)
        rw [hw.run] at hrun
        cases hgives.of_transact hrun
        rw [storedSeq_replaceRows, (strtoll_take_eq_iff (by norm_num)).mpr ⟨hfits.above, hfits.below⟩]
    · push Not at hw
      refine ⟨fun id seq hid hseq hnewer rooms r t' hrun k hk => ?_, fun id hid rooms t' hrun => ?_⟩
      · rw [(convertXmlCheck_of_not_written hw hrun).1]
      · exact absurd rfl (convertXmlCheck_of_not_written hw hrun).2

end Convert

def newerStored : Lmdb := OrderedTable.empty.put (attrKey (List.Vector.replicate 16 1) .seq) [57]

theorem newer_check_overwritten :
    storedSeq newerStored (List.Vector.replicate 16 1) = some 9 ∧ (oneCheckSection false 7).seqOrZero = 7 ∧
      ∃ rooms t', convertXmlCheck standardUuidText [] (List.Vector.replicate 16 0)
        (oneCheckSection false 7) newerStored
          rooms = some (.done (.ok true) t') ∧
        storedSeq t' (List.Vector.replicate 16 1) = some 7 := by
  have hw : Written standardUuidText [] (List.Vector.replicate 16 0) (oneCheckSection false 7) newerStored
      (List.Vector.replicate 16 1) :=
    ⟨by decide +kernel, by decide +kernel, by decide +kernel, by decide +kernel⟩
  obtain ⟨n, hgives⟩ := convertTxn_gives hw.keys (List.Vector.replicate 16 1) newerStored
  refine ⟨by decide +kernel, rfl, [n + 1], _,
    (hw.run _).trans (hgives.transact_eq ⟨n + 1, List.mem_singleton_self _, Nat.lt_succ_self n⟩), ?_⟩
  rw [storedSeq_replaceRows]
  decide +kernel

end Reconnoiter
