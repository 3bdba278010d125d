import Reconnoiter.CheckKeys

/-! Converting a check definition from XML to LMDB, and the check that is then loaded
compared with the check loaded from the XML. -/

namespace Reconnoiter

structure PeriodLimits where
  minimum : Int
  maximum : Int
  pos : 0 < minimum
  le : minimum ≤ maximum
  lt : maximum < 2 ^ 31

structure ModuleNames where
  names : List Bytes
  nodup : names.Nodup
  ne_nil : ∀ n ∈ names, n ≠ []
  short : ∀ n ∈ names, n.length < 65536

def HashTable (c : Config) : Prop := (c.map Prod.fst).Nodup ∧ ∀ kv ∈ c, kv.1.length < 65536

structure CheckDefinition (mods : ModuleNames) (lim : PeriodLimits) where
  sec : CheckSection
  on : sec.envOff = false
  minimum : sec.minimumPeriod.getD 1000 = lim.minimum
  maximum : sec.maximumPeriod.getD 300000 = lim.maximum
  seq_lt : sec.seqOrZero < 2 ^ 63
  timeout_lt : sec.timeout.getD 0 < 2 ^ 31
  config : HashTable sec.config
  mconfigs_length : sec.mconfigs.map List.length = if mods.names = [] then none else some mods.names.length
  mconfigs : ∀ c, some c ∈ sec.mconfigs.getD [] → c ≠ [] ∧ HashTable c

inductive ConvertError where
  | noUuid
  | invalidUuid
  | noTarget
  | malformedTarget
  | noModule
  | malformedName
  | neitherPeriodNorOncheck
  | oncheckAndPeriod
  | noTimeout
  | badValsize
  | outdated
deriving DecidableEq

namespace CheckSection

variable (ut : UuidText) (sec : CheckSection)

def convertDeleted : Bool := (stringbuf 8 sec.deleted).getD [] = deletedText

-- Inheritance is never switched on, so the limits are the default ones.
def convertPeriod : Int := if sec.noPeriod then 0 else clampPeriod 1000 300000 (sec.period.getD 0)

def convertTimeout : Int :=
  if sec.convertDeleted then 0 else checkTimeout sec.noPeriod sec.convertPeriod (sec.timeout.getD 0)

def storedAttr (uuid : Uuid) : CheckAttr → Option Bytes
  | .target => if sec.convertDeleted then some noneTarget else stringbuf 256 sec.target
  | .module => stringbuf 256 sec.module
  | .name => some (if sec.convertDeleted then ut.unparseLower uuid else sec.ownName)
  | .filterset => stringbuf 256 sec.filterset
  | .seq => some ((decimalInt sec.seqOrZero).take 15)
  | .period => sec.period.map fun _ => decimalInt sec.convertPeriod
  | .timeout => some (decimalInt sec.convertTimeout)
  | .resolveRtype => stringbuf 16 sec.resolveRtype
  | .oncheck => if sec.noOncheck then none else some sec.oncheckText
  | .deleted => stringbuf 8 sec.deleted
  | .transientMinPeriod => sec.transientMinPeriod.map decimalInt
  | .transientPeriodGranularity => sec.transientPeriodGranularity.map decimalInt

def attrRows (uuid : Uuid) : List (CheckData × Bytes) :=
  CheckAttr.all.filterMap fun a =>
    (sec.storedAttr ut uuid a).map fun v => (⟨uuid.toList, checkAttributeType, [], a.text⟩, v)

end CheckSection

def configRows (uuid : Uuid) (ns : Bytes) (c : Config) : List (CheckData × Bytes) :=
  c.map fun kv => (⟨uuid.toList, checkConfigType, ns, kv.1⟩, kv.2)

def moduleRows (uuid : Uuid) (modules : List Bytes) (mconfigs : List (Option Config)) :
    List (CheckData × Bytes) :=
  (modules.zip mconfigs).flatMap fun m => configRows uuid m.1 (m.2.getD [])

namespace CheckSection

variable (ut : UuidText) (sec : CheckSection)

def storedRows (modules : List Bytes) (uuid : Uuid) : List (CheckData × Bytes) :=
  sec.attrRows ut uuid ++ configRows uuid [] sec.config ++ moduleRows uuid modules (sec.mconfigs.getD [])

def refusal : Option ConvertError :=
  if sec.convertDeleted then none
  else if sec.target.isNone then some .noTarget
  else if !genericSafeString ((stringbuf 256 sec.target).getD []) then some .malformedTarget
  else if sec.module.isNone then some .noModule
  else if !genericSafeString sec.ownName then some .malformedName
  else if sec.noPeriod && sec.noOncheck then some .neitherPeriodNorOncheck
  else if !(sec.noPeriod || sec.noOncheck) then some .oncheckAndPeriod
  else if sec.timeout.isNone then some .noTimeout
  else none

end CheckSection

def encodeRow (uuid : Uuid) (row : CheckData × Bytes) : Bytes × Bytes :=
  (makeCheckKey uuid row.1.type row.1.ns row.1.key, row.2)

def CheckSection.encodedRows (sec : CheckSection) (ut : UuidText) (modules : List Bytes) (uuid : Uuid) :
    List (Bytes × Bytes) :=
  (sec.storedRows ut modules uuid).map (encodeRow uuid)

/-- `noit_check_lmdb_convert_one_xml_check_to_lmdb` up to its transaction, by the sequence number it has
read: the uuid of the check to write, none where the stored check is newer, or why it is refused. -/
def CheckSection.toConvert (sec : CheckSection) (ut : UuidText) (oldSeq : Int) :
    Except ConvertError (Option Uuid) :=
  if sec.uuid.isNone then .error .noUuid
  else if sec.seqOrZero < oldSeq then .ok none
  else
    match sec.checkid ut with
    | none => .error .invalidUuid
    | some uuid =>
      match sec.refusal with
      | some e => .error e
      | none => .ok (some uuid)

/-- The pairs that the conversion puts into a database without the check, whose number is then -1. A key
of more than 511 bytes is refused by LMDB. -/
def convertOneXmlCheck (ut : UuidText) (modules : List Bytes) (sec : CheckSection) :
    Except ConvertError (Uuid × List (Bytes × Bytes)) :=
  match sec.toConvert ut (-1) with
  | .error e => .error e
  | .ok none => .error .outdated
  | .ok (some uuid) =>
    let written := sec.encodedRows ut modules uuid
    if written.any (fun e => 511 < e.1.length) then .error .badValsize else .ok (uuid, written)

structure SameCheck (xmlModule lmdbModule : Bytes) (xml lmdb : CheckArgs) : Prop where
  target : lmdb.target = xml.target
  module : lmdbModule = xmlModule
  name : lmdb.name = xml.name
  filterset : lmdb.filterset = xml.filterset
  period : lmdb.period = xml.period
  timeout : lmdb.timeout = xml.timeout
  oncheck : lmdb.oncheck = xml.oncheck
  seq : lmdb.normalized.seq = xml.normalized.seq
  disabled : lmdb.flags.disabled = xml.flags.disabled
  deleted : lmdb.flags.deleted = xml.flags.deleted
  config : Option.Rel List.Perm lmdb.config xml.config
  mconfigs : Option.Rel (List.Forall₂ (Option.Rel List.Perm)) lmdb.mconfigs xml.mconfigs

def PeriodLimits.inherited (lim : PeriodLimits) (checks : LmdbInherited) : LmdbInherited :=
  { checks with globalMinimumPeriod := lim.minimum, globalMaximumPeriod := lim.maximum }

/-- What stands above the check is given by the check as well, so that the XML loader inherits nothing. -/
structure CheckSection.GivenLocally (sec : CheckSection) (checks : LmdbInherited) : Prop where
  target : checks.target.isSome → sec.target.isSome
  module : checks.module.isSome → sec.module.isSome
  filterset : checks.filterset.isSome → sec.filterset.isSome
  oncheck : checks.oncheck.isSome → sec.oncheck.isSome
  period : checks.period.isSome → sec.period.isSome

/-- The LMDB loader inherits in place of an empty text, which the XML loader keeps. -/
def KeepsText (attr inherited : Option Bytes) : Prop := attr = some [] → inherited.getD [] = []

def PeriodLimits.KeepsPeriod (lim : PeriodLimits) (period : Int) : Prop :=
  lim.minimum = lim.maximum ∨
    (period < 1000 → 1000 ≤ lim.minimum ∨ lim.maximum ≤ period) ∧
      (300000 < period → lim.maximum ≤ 300000 ∨ period ≤ lim.minimum)

def PeriodLimits.KeepsTimeout (lim : PeriodLimits) (period timeout : Int) : Prop :=
  let converted := clampPeriod 1000 300000 period
  let configured := clampPeriod lim.minimum lim.maximum period
  max timeout 0 < converted ∨ converted = configured ∨ configured ≤ converted / 2 ∨
    configured ≤ max timeout 0 ∧ converted / 2 = configured / 2

structure CheckSection.Converts (sec : CheckSection) (lim : PeriodLimits) (checks : LmdbInherited) :
    Prop where
  deleted : ∀ d, sec.deleted = some d → d.take 7 = deletedText
  enabled : sec.deleted = none → sec.disable ≠ some true
  seq : sec.seqOrZero < 10 ^ 15
  period : sec.period ≠ some 0
  limits : ∀ p, sec.period = some p → lim.KeepsPeriod p
  timeout : ∀ p, sec.period = some p → sec.deleted = none → lim.KeepsTimeout p (sec.timeout.getD 0)
  target : sec.deleted = none → KeepsText sec.target checks.target
  module : KeepsText sec.module checks.module
  filterset : KeepsText sec.filterset checks.filterset
  oncheck : KeepsText sec.oncheck checks.oncheck

/-! ### Reading the pairs back -/

section ReadBack

variable {ut : UuidText} {mods : ModuleNames} {lim : PeriodLimits} {uuid : Uuid}

theorem filterMap_configRows {γ : Type} (f : CheckData × Bytes → Option γ) (ns : Bytes) (c : Config) :
    (configRows uuid ns c).filterMap f =
      c.filterMap fun kv => f (⟨uuid.toList, checkConfigType, ns, kv.1⟩, kv.2) := by
  rw [configRows, List.filterMap_map]
  rfl

theorem filterMap_moduleRows {γ : Type} (f : CheckData × Bytes → Option γ) (modules : List Bytes)
    (mconfigs : List (Option Config)) :
    (moduleRows uuid modules mconfigs).filterMap f =
      (modules.zip mconfigs).flatMap fun m => (configRows uuid m.1 (m.2.getD [])).filterMap f := by
  rw [moduleRows, List.filterMap_flatMap]

theorem attributeType_ne : checkAttributeType ≠ checkConfigType := by decide

theorem attrRow_config (a : CheckAttr) (ns : Bytes) (kv : Bytes × Bytes) :
    attrRow a (⟨uuid.toList, checkConfigType, ns, kv.1⟩, kv.2) = none :=
  if_neg fun h => attributeType_ne h.1.symm

theorem filterMap_single {α β : Type} [DecidableEq α] {l : List α} (hl : l.Nodup) {a : α} (ha : a ∈ l)
    (f : α → Option β) : (l.filterMap fun b => if b = a then f b else none) = (f a).toList := by
  induction l with
  | nil => exact absurd ha List.not_mem_nil
  | cons b l ih =>
    obtain ⟨hb, hl⟩ := List.nodup_cons.mp hl
    by_cases hab : b = a
    · subst hab
      have hrest : (l.filterMap fun c => if c = b then f c else none) = [] := by
        rw [List.filterMap_eq_nil_iff]
        intro c hc
        exact if_neg fun he : c = b => hb (he ▸ hc)
      rcases hf : f b with - | v
      · simp [hf, hrest]
      · simp [hf, hrest]
    · have ha : a ∈ l := (List.mem_cons.mp ha).resolve_left (Ne.symm hab)
      simpa [hab] using ih hl ha

theorem attrRow_attr (sec : CheckSection) (a b : CheckAttr) :
    ((sec.storedAttr ut uuid b).map fun v =>
      ((⟨uuid.toList, checkAttributeType, [], b.text⟩ : CheckData), v)).bind (attrRow a) =
      if b = a then sec.storedAttr ut uuid b else none := by
  rcases sec.storedAttr ut uuid b with - | v
  · simp
  · by_cases hb : b = a
    · simp [attrRow, CheckAttr.ofText_text, hb]
    · simp [attrRow, CheckAttr.ofText_text, hb]

theorem filterMap_attrRow_stored (sec : CheckSection) (a : CheckAttr) :
    (sec.storedRows ut mods.names uuid).filterMap (attrRow a) = (sec.storedAttr ut uuid a).toList := by
  have hconfig : ∀ ns c, (configRows uuid ns c).filterMap (attrRow a) = [] := by
    intro ns c
    rw [filterMap_configRows]
    simp [attrRow_config]
  have hattr : (sec.attrRows ut uuid).filterMap (attrRow a) = (sec.storedAttr ut uuid a).toList := by
    rw [CheckSection.attrRows, List.filterMap_filterMap]
    simp only [attrRow_attr]
    exact filterMap_single (by decide) (by cases a <;> decide) _
  rw [CheckSection.storedRows, List.filterMap_append, List.filterMap_append, hattr, hconfig,
    filterMap_moduleRows]
  simp [hconfig]

theorem filterMap_optionRow_stored (sec : CheckSection) :
    (sec.storedRows ut mods.names uuid).filterMap optionRow = sec.config := by
  have hattr : (sec.attrRows ut uuid).filterMap optionRow = [] := by
    rw [CheckSection.attrRows, List.filterMap_filterMap, List.filterMap_eq_nil_iff]
    intro a _
    rcases sec.storedAttr ut uuid a with - | v
    · rfl
    · simp [optionRow, attributeType_ne]
  have hconfig : (configRows uuid [] sec.config).filterMap optionRow = sec.config := by
    rw [filterMap_configRows]
    simp [optionRow]
  have hmodule : (moduleRows uuid mods.names (sec.mconfigs.getD [])).filterMap optionRow = [] := by
    rw [filterMap_moduleRows, List.flatMap_eq_nil_iff]
    intro m hm
    have hne := mods.ne_nil m.1 (List.of_mem_zip hm).1
    rw [filterMap_configRows]
    simp [optionRow, hne]
  rw [CheckSection.storedRows, List.filterMap_append, List.filterMap_append, hattr, hconfig, hmodule]
  simp

theorem findIdx?_of_nodup {names : List Bytes} (hn : names.Nodup) {i : Nat}
    {n : Bytes} (hi : names[i]? = some n) (m : Bytes) : names.findIdx? (· = m) = some i ↔ m = n := by
  rw [List.findIdx?_eq_some_iff_getElem]
  obtain ⟨hlt, rfl⟩ := List.getElem?_eq_some_iff.mp hi
  constructor
  · rintro ⟨_, h, -⟩
    exact (of_decide_eq_true h).symm
  · rintro rfl
    refine ⟨hlt, decide_eq_true rfl, fun j hj => ?_⟩
    simp only [decide_eq_true_iff]
    intro he
    exact absurd ((List.Nodup.getElem_inj_iff hn).mp he) hj.ne

theorem flatMap_zip_single {names : List Bytes} (hn : names.Nodup) {cs : List (Option Config)}
    (hlen : cs.length = names.length) {i : Nat} {n : Bytes} (hi : names[i]? = some n) :
    ((names.zip cs).flatMap fun m => if m.1 = n then m.2.getD [] else []) = (cs[i]?.getD none).getD [] := by
  induction names generalizing cs i with
  | nil => exact absurd hi (by simp)
  | cons k names ih =>
    obtain ⟨hk, hn⟩ := List.nodup_cons.mp hn
    obtain ⟨c, cs, rfl⟩ := List.exists_cons_of_length_eq_add_one hlen
    have hlen : cs.length = names.length := by simpa using hlen
    cases i with
    | zero =>
      obtain rfl : k = n := by simpa using hi
      have hrest : ((names.zip cs).flatMap fun m => if m.1 = k then m.2.getD [] else []) = [] := by
        rw [List.flatMap_eq_nil_iff]
        intro m hm
        exact if_neg fun he : m.1 = k => hk (he ▸ (List.of_mem_zip hm).1)
      simp [hrest]
    | succ i =>
      have hi : names[i]? = some n := by simpa using hi
      have hkn : k ≠ n := fun he => hk (he ▸ List.mem_of_getElem? hi)
      simpa [hkn] using ih hn hlen hi

theorem filterMap_moduleRow_stored {sec : CheckSection}
    (hlen : (sec.mconfigs.getD []).length = mods.names.length)
    {i : Nat} {n : Bytes} (hi : mods.names[i]? = some n) :
    (sec.storedRows ut mods.names uuid).filterMap (moduleRow mods.names i) =
      ((sec.mconfigs.getD [])[i]?.getD none).getD [] := by
  have hattr : (sec.attrRows ut uuid).filterMap (moduleRow mods.names i) = [] := by
    rw [CheckSection.attrRows, List.filterMap_filterMap, List.filterMap_eq_nil_iff]
    intro a _
    rcases sec.storedAttr ut uuid a with - | v
    · rfl
    · simp [moduleRow, attributeType_ne]
  have hconfig : (configRows uuid [] sec.config).filterMap (moduleRow mods.names i) = [] := by
    rw [filterMap_configRows]
    simp [moduleRow]
  rw [CheckSection.storedRows, List.filterMap_append, List.filterMap_append, hattr,
    hconfig, filterMap_moduleRows,
    List.nil_append, List.nil_append, ← flatMap_zip_single mods.nodup hlen hi]
  apply List.flatMap_congr
  intro m hm
  have hne := mods.ne_nil m.1 (List.of_mem_zip hm).1
  rw [filterMap_configRows]
  by_cases he : m.1 = n
  · have hf := (findIdx?_of_nodup mods.nodup hi m.1).mpr he
    rw [if_pos he]
    simp [moduleRow, hf, hne]
  · have hf := mt (findIdx?_of_nodup mods.nodup hi m.1).mp he
    simp [moduleRow, hf, he]

theorem length_mconfigs (d : CheckDefinition mods lim) :
    (d.sec.mconfigs.getD []).length = mods.names.length := by
  have hl := d.mconfigs_length
  rcases hm : d.sec.mconfigs with - | l
  · rw [hm] at hl
    by_cases hn : mods.names = []
    · simp [hn]
    · simp [hn] at hl
  · rw [hm] at hl
    by_cases hn : mods.names = []
    · simp [hn] at hl
    · simpa [hn] using hl

theorem storedRows_fit (d : CheckDefinition mods lim) {row : CheckData × Bytes}
    (h : row ∈ d.sec.storedRows ut mods.names uuid) :
    row.1.id = uuid.toList ∧ row.1.ns.length < 65536 ∧ row.1.key.length < 65536 := by
  rw [CheckSection.storedRows, List.mem_append, List.mem_append] at h
  rcases h with (h | h) | h
  · obtain ⟨a, -, ha⟩ := List.mem_filterMap.mp h
    obtain ⟨v, -, rfl⟩ := Option.map_eq_some_iff.mp ha
    have hkey : a.text.length < 65536 := by cases a <;> decide
    exact ⟨rfl, Nat.zero_lt_succ _, hkey⟩
  · obtain ⟨kv, hkv, rfl⟩ := List.mem_map.mp h
    exact ⟨rfl, Nat.zero_lt_succ _, d.config.2 kv hkv⟩
  · obtain ⟨⟨n, c⟩, hm, h⟩ := List.mem_flatMap.mp h
    obtain ⟨kv, hkv, rfl⟩ := List.mem_map.mp h
    obtain ⟨hn, hc⟩ := List.of_mem_zip hm
    rcases c with - | c
    · exact absurd hkv List.not_mem_nil
    · exact ⟨rfl, mods.short n hn, (d.mconfigs c hc).2.2 kv hkv⟩

theorem decode_encodeRow {row : CheckData × Bytes} (hid : row.1.id = uuid.toList)
    (hns : row.1.ns.length < 65536) (hkey : row.1.key.length < 65536) :
    (checkDataFromKey (encodeRow uuid row).1, (encodeRow uuid row).2) = row := by
  obtain ⟨⟨id, type, ns, key⟩, v⟩ := row
  obtain rfl : id = uuid.toList := hid
  rw [encodeRow, checkDataFromKey_make uuid type hns hkey]

theorem readRows_stored (d : CheckDefinition mods lim) {entries : List (Bytes × Bytes)}
    (hp : entries.Perm ((d.sec.storedRows ut mods.names uuid).map (encodeRow uuid))) :
    ∃ l : List (CheckData × Bytes), l.Perm (d.sec.storedRows ut mods.names uuid) ∧
      readRows mods.names uuid entries = l.foldl (readRow mods.names) .empty := by
  set decode : Bytes × Bytes → CheckData × Bytes := fun e => (checkDataFromKey e.1, e.2) with hdecode
  have hl : (entries.map decode).Perm (d.sec.storedRows ut mods.names uuid) := by
    have hback : ((d.sec.storedRows ut mods.names uuid).map (encodeRow uuid)).map decode =
        d.sec.storedRows ut mods.names uuid := by
      rw [List.map_map]
      refine (List.map_congr_left fun row hrow => ?_).trans (List.map_id _)
      obtain ⟨hid, hns, hkey⟩ := storedRows_fit d hrow
      exact decode_encodeRow hid hns hkey
    exact hback ▸ hp.map decode
  have hall : ∀ row ∈ entries.map decode, decide (row.1.id = uuid.toList) = true := by
    intro row hrow
    exact decide_eq_true (storedRows_fit d (hl.subset hrow)).1
  exact ⟨entries.map decode, hl, by rw [readRows, List.takeWhile_eq_self_iff.mpr hall]⟩

theorem perm_toList {α : Type} {l : List α} {o : Option α} (h : l.Perm o.toList) : l.getLast? = o := by
  rcases o with - | v
  · rw [List.perm_nil.mp h]
    rfl
  · rw [List.perm_singleton.mp h]
    rfl

theorem attr_stored (d : CheckDefinition mods lim) {entries : List (Bytes × Bytes)}
    (hp : entries.Perm ((d.sec.storedRows ut mods.names uuid).map (encodeRow uuid))) (a : CheckAttr) :
    (readRows mods.names uuid entries).attr a = d.sec.storedAttr ut uuid a := by
  obtain ⟨l, hl, hr⟩ := readRows_stored d hp
  have hf := hl.filterMap (attrRow a)
  rw [filterMap_attrRow_stored] at hf
  rw [hr, attr_foldl, perm_toList hf]
  exact Option.or_none

theorem foldl_hashStore_perm {l c : Config} (hl : l.Perm c) (hc : HashTable c) :
    (l.foldl hashStore []).Perm c := by
  have hstore : l.foldl hashStore [] = l := @foldl_hashStore l [] ((hl.map Prod.fst).nodup_iff.mpr hc.1)
  rwa [hstore]

theorem options_stored (d : CheckDefinition mods lim) {entries : List (Bytes × Bytes)}
    (hp : entries.Perm ((d.sec.storedRows ut mods.names uuid).map (encodeRow uuid))) :
    (readRows mods.names uuid entries).options.Perm d.sec.config := by
  obtain ⟨l, hl, hr⟩ := readRows_stored d hp
  have hf := hl.filterMap optionRow
  rw [filterMap_optionRow_stored] at hf
  rw [hr, options_foldl]
  exact foldl_hashStore_perm hf d.config

theorem moptions_stored (d : CheckDefinition mods lim) {entries : List (Bytes × Bytes)}
    (hp : entries.Perm ((d.sec.storedRows ut mods.names uuid).map (encodeRow uuid))) {i : Nat}
    (hi : i < mods.names.length) :
    Option.Rel List.Perm ((readRows mods.names uuid entries).moptions i)
      ((d.sec.mconfigs.getD [])[i]?.getD none) := by
  obtain ⟨l, hl, hr⟩ := readRows_stored d hp
  have hf := hl.filterMap (moduleRow mods.names i)
  rw [filterMap_moduleRow_stored (length_mconfigs d) (List.getElem?_eq_getElem hi)] at hf
  have hlen : i < (d.sec.mconfigs.getD []).length := (length_mconfigs d).symm ▸ hi
  rw [hr, moptions_foldl]
  rw [List.getElem?_eq_getElem hlen, Option.getD_some] at hf ⊢
  have hmem := List.getElem_mem hlen
  rcases hc : (d.sec.mconfigs.getD [])[i] with - | c
  · rw [hc] at hf
    rw [if_pos (List.perm_nil.mp hf)]
    exact .none
  · rw [hc] at hf hmem
    obtain ⟨hne, htable⟩ := d.mconfigs c hmem
    have hne' : l.filterMap (moduleRow mods.names i) ≠ [] := fun he => hne (List.nil_perm.mp (he ▸ hf))
    rw [if_neg hne']
    exact .some (foldl_hashStore_perm hf htable)

end ReadBack

/-! ### The two checks, field by field -/

section Fields

variable {ut : UuidText} {uuid : Uuid} {sec : CheckSection} {lim : PeriodLimits} {checks : LmdbInherited}

theorem stringbuf_stringbuf (m n : Nat) (h : m ≤ n) (a : Option Bytes) :
    stringbuf n (stringbuf m a) = stringbuf m a := by
  rcases a with - | s
  · rfl
  · simp only [stringbuf, Option.map_some, List.take_take]
    rw [min_eq_right (by omega)]

theorem ite_eq_ite_iff (s t : Bytes) :
    (if s = [] then none else some s) = (if t = [] then none else some t) ↔ s = t := by
  cases s <;> cases t <;> simp

theorem take_eq_nil_iff_of_lt {n : Nat} (hn : 1 < n) {s : Bytes} : s.take (n - 1) = [] ↔ s = [] := by
  rw [List.take_eq_nil_iff, or_iff_right (by omega)]

theorem orInherited_eq_iff {n : Nat} (hn : 1 < n) {a inherited : Option Bytes}
    (h : inherited.isSome → a.isSome) :
    (LmdbCheck.orInherited n (stringbuf n a) inherited).getD [] = (stringbuf n a).getD [] ↔
      KeepsText a inherited := by
  have htext : (stringbuf n inherited).getD [] = [] ↔ inherited.getD [] = [] := by
    rcases inherited with - | s
    · rfl
    · exact take_eq_nil_iff_of_lt hn
  rw [LmdbCheck.orInherited, stringbuf_stringbuf n n le_rfl, KeepsText]
  rcases a with - | s
  · have hnone : inherited = none := by simpa using h
    simp [hnone, stringbuf]
  · cases s with
    | nil =>
      simp only [stringbuf, Option.map_some, List.take_nil, Option.getD_some, true_implies]
      exact htext
    | cons c cs =>
      obtain ⟨m, rfl⟩ := Nat.exists_eq_add_of_lt hn
      simp [stringbuf, Nat.add_comm 1 m]

theorem atoi_stringbuf {z : Int} (hlo : 0 ≤ z) (hhi : z < 2 ^ 31) :
    (stringbuf 256 (some (decimalInt z))).map atoi = some z := by
  have hlen : (decimalInt z).length ≤ 255 := by
    rw [decimalInt, if_neg (not_lt.mpr hlo)]
    have := (@length_decimal_le z.natAbs 10 (by norm_num)).mpr (by omega)
    omega
  rw [stringbuf, Option.map_some, List.take_of_length_le hlen, Option.map_some,
    atoi_decimalInt (by omega) hhi]

theorem asUint32_inj {x y : Int} (hx : 0 ≤ x) (hx' : x < 2 ^ 31) (hy : 0 ≤ y) (hy' : y < 2 ^ 31) :
    asUint32 x = asUint32 y ↔ x = y := by
  unfold asUint32
  omega

theorem convertDeleted_eq_iff :
    sec.convertDeleted = sec.isDeleted ↔ ∀ d, sec.deleted = some d → d.take 7 = deletedText := by
  unfold CheckSection.convertDeleted CheckSection.isDeleted
  rcases sec.deleted with - | d
  · simp [stringbuf, deletedText]
  · constructor
    · rintro h e ⟨⟩
      exact of_decide_eq_true h
    · intro h
      exact decide_eq_true (h d rfl)

theorem convertPeriod_mem : 0 ≤ sec.convertPeriod ∧ sec.convertPeriod < 2 ^ 31 := by
  unfold CheckSection.convertPeriod clampPeriod
  dsimp only
  split_ifs <;> omega

theorem checkTimeout_mem {noPeriod : Bool} {p t : Int} (hp : 0 ≤ p) (hp' : p < 2 ^ 31) (ht : t < 2 ^ 31) :
    0 ≤ checkTimeout noPeriod p t ∧ checkTimeout noPeriod p t < 2 ^ 31 := by
  have hdiv : p.tdiv 2 = p / 2 := Int.tdiv_eq_ediv_of_nonneg hp
  unfold checkTimeout
  dsimp only
  rw [hdiv]
  split_ifs <;> omega

theorem convertTimeout_mem (ht : sec.timeout.getD 0 < 2 ^ 31) :
    0 ≤ sec.convertTimeout ∧ sec.convertTimeout < 2 ^ 31 := by
  unfold CheckSection.convertTimeout
  split
  · omega
  · exact checkTimeout_mem convertPeriod_mem.1 convertPeriod_mem.2 ht

structure ReadsAs (ut : UuidText) (uuid : Uuid) (sec : CheckSection) (data : LmdbCheck) : Prop where
  target : data.target = sec.storedAttr ut uuid .target
  module : data.module = stringbuf 256 sec.module
  name : data.name = sec.storedAttr ut uuid .name
  filterset : data.filterset = stringbuf 256 sec.filterset
  seq : data.seq = some (strtoll ((decimalInt sec.seqOrZero).take 15))
  period : data.period = sec.period.map fun _ => sec.convertPeriod
  timeout : data.timeout = some sec.convertTimeout
  oncheck : data.oncheck = if sec.noOncheck then none else some sec.oncheckText
  deleted : data.deleted = stringbuf 8 sec.deleted

variable {data : LmdbCheck} (hr : ReadsAs ut uuid sec data)

include hr

theorem ReadsAs.isDeleted : data.isDeleted = sec.convertDeleted := by
  unfold LmdbCheck.isDeleted CheckSection.convertDeleted
  rw [hr.deleted, stringbuf_stringbuf 8 16 (by norm_num)]
  rcases sec.deleted with - | d
  · rfl
  · exact decide_eq_decide.mpr Option.some_inj

theorem ReadsAs.noPeriod (hlocal : sec.GivenLocally checks) :
    data.noPeriod (lim.inherited checks) = sec.period.isNone := by
  rw [LmdbCheck.noPeriod, hr.period]
  rcases hp : sec.period with - | p
  · have hnone : checks.period = none := by simpa [hp] using hlocal.period
    simp [PeriodLimits.inherited, hnone]
  · rfl

theorem ReadsAs.noOncheck : data.noOncheck = sec.noOncheck := by
  rw [LmdbCheck.noOncheck, hr.oncheck]
  cases sec.noOncheck <;> rfl

theorem ReadsAs.oncheckText_eq_iff (hlocal : sec.GivenLocally checks) :
    data.oncheckText (lim.inherited checks) = sec.oncheckText ↔ KeepsText sec.oncheck checks.oncheck := by
  rw [← orInherited_eq_iff (n := 1024) (by norm_num) hlocal.oncheck, LmdbCheck.oncheckText, hr.oncheck]
  by_cases ho : sec.oncheckText = []
  · -- nothing is stored for an empty text, which is as good as storing it
    have hstored : LmdbCheck.orInherited 1024 none checks.oncheck =
        LmdbCheck.orInherited 1024 (stringbuf 1024 sec.oncheck) checks.oncheck := by
      rw [LmdbCheck.orInherited, LmdbCheck.orInherited, stringbuf_stringbuf 1024 1024 le_rfl]
      unfold CheckSection.oncheckText at ho
      rcases hs : stringbuf 1024 sec.oncheck with - | s
      · rfl
      · rw [hs, Option.getD_some] at ho
        rw [ho]
        rfl
    have hno : sec.noOncheck = true := decide_eq_true ho
    rw [hno, if_pos rfl, ← hstored]
    rfl
  · have hno : sec.noOncheck = false := decide_eq_false ho
    have htext : some sec.oncheckText = stringbuf 1024 sec.oncheck := by
      unfold CheckSection.oncheckText at ho ⊢
      rcases hs : stringbuf 1024 sec.oncheck with - | s
      · rw [hs] at ho
        exact absurd rfl ho
      · rfl
    rw [hno, if_neg Bool.false_ne_true, htext]
    rfl

theorem ReadsAs.periodMs (hlocal : sec.GivenLocally checks) : data.periodMs (lim.inherited checks) =
    if sec.period.isNone then 0
    else if sec.convertPeriod < lim.minimum then lim.minimum
    else if sec.convertPeriod > lim.maximum then lim.maximum else sec.convertPeriod := by
  rw [LmdbCheck.periodMs, hr.period]
  rcases hp : sec.period with - | p
  · have hnone : checks.period = none := by simpa [hp] using hlocal.period
    simp [PeriodLimits.inherited, hnone]
  · rfl

theorem ReadsAs.periodMs_mem (hlocal : sec.GivenLocally checks) :
    0 ≤ data.periodMs (lim.inherited checks) ∧ data.periodMs (lim.inherited checks) < 2 ^ 31 := by
  have hpos := lim.pos
  have hle := lim.le
  have hlt := lim.lt
  have hc := @convertPeriod_mem sec
  rw [hr.periodMs hlocal]
  split_ifs <;> omega

theorem ReadsAs.timeout_or : (data.timeout.or (lim.inherited checks).timeout).getD 0 =
    sec.convertTimeout := by
  rw [hr.timeout]
  rfl

omit hr

theorem xmlPeriod_mem (hmin : sec.minimumPeriod.getD 1000 = lim.minimum)
    (hmax : sec.maximumPeriod.getD 300000 = lim.maximum) : 0 ≤ sec.periodMs ∧ sec.periodMs < 2 ^ 31 := by
  have hpos := lim.pos
  have hle := lim.le
  have hlt := lim.lt
  unfold CheckSection.periodMs clampPeriod
  rw [hmin, hmax]
  dsimp only
  split_ifs <;> omega

theorem ReadsAs.period_eq_iff (hr : ReadsAs ut uuid sec data) (hlocal : sec.GivenLocally checks)
    (hmin : sec.minimumPeriod.getD 1000 = lim.minimum)
    (hmax : sec.maximumPeriod.getD 300000 = lim.maximum) :
    data.periodMs (lim.inherited checks) = sec.periodMs ↔
      sec.period ≠ some 0 ∧ ∀ p, sec.period = some p → lim.KeepsPeriod p := by
  have hpos := lim.pos
  have hle := lim.le
  rw [hr.periodMs hlocal]
  unfold CheckSection.periodMs CheckSection.convertPeriod CheckSection.noPeriod
  rw [hmin, hmax]
  rcases hp : sec.period with - | p
  · simp
  · by_cases hz : p = 0
    · subst hz
      simp only [Option.isNone_some, Option.getD_some, decide_true, Bool.false_eq_true, if_false, if_true]
      refine iff_of_false ?_ (fun h => h.1 rfl)
      rw [if_pos hpos]
      omega
    · have hkeeps : (∀ q, some p = some q → lim.KeepsPeriod q) ↔ lim.KeepsPeriod p :=
        ⟨fun h => h p rfl, fun h q hq => Option.some.inj hq ▸ h⟩
      rw [hkeeps]
      simp only [Option.isNone_some, Option.getD_some, hz, decide_false, Bool.false_eq_true, if_false, ne_eq,
        Option.some.injEq, not_false_eq_true, true_and, PeriodLimits.KeepsPeriod, clampPeriod]
      split_ifs <;> omega

theorem checkTimeout_true (p t : Int) : checkTimeout true p t = max t 0 := rfl

theorem checkTimeout_false {p : Int} (hp : 0 ≤ p) (t : Int) :
    checkTimeout false p t = if p ≤ max t 0 then p / 2 else max t 0 := by
  rw [checkTimeout, Int.tdiv_eq_ediv_of_nonneg hp]
  simp

theorem checkTimeout_twice_iff {converted configured t : Int} (hc : 0 < converted) (hp : 0 < configured) :
    checkTimeout false configured (checkTimeout false converted t) = checkTimeout false configured t ↔
      max t 0 < converted ∨ converted = configured ∨ configured ≤ converted / 2 ∨
        configured ≤ max t 0 ∧ converted / 2 = configured / 2 := by
  rw [checkTimeout_false hc.le, checkTimeout_false hp.le, checkTimeout_false hp.le]
  split_ifs <;> omega

theorem ReadsAs.timeout_eq_iff (hr : ReadsAs ut uuid sec data) (hlocal : sec.GivenLocally checks)
    (hmin : sec.minimumPeriod.getD 1000 = lim.minimum)
    (hmax : sec.maximumPeriod.getD 300000 = lim.maximum) (ht : sec.timeout.getD 0 < 2 ^ 31)
    (hdel : sec.convertDeleted = sec.isDeleted)
    (hper : sec.period ≠ some 0 ∧ ∀ p, sec.period = some p → lim.KeepsPeriod p) :
    (data.args ut (lim.inherited checks) uuid).timeout = (sec.args ut uuid).timeout ↔
      ∀ p, sec.period = some p → sec.deleted = none → lim.KeepsTimeout p (sec.timeout.getD 0) := by
  have hperiod := (hr.period_eq_iff hlocal hmin hmax).mpr hper
  have hmem := xmlPeriod_mem hmin hmax
  simp only [LmdbCheck.args, CheckSection.args]
  rw [hr.isDeleted, hdel, hr.noPeriod hlocal, hr.timeout_or, hperiod]
  rcases hd : sec.deleted with - | del
  · have hnot : sec.isDeleted = false := by simp [CheckSection.isDeleted, hd]
    have hconv : sec.convertTimeout = checkTimeout sec.noPeriod sec.convertPeriod (sec.timeout.getD 0) := by
      rw [CheckSection.convertTimeout, hdel, hnot, if_neg Bool.false_ne_true]
    rw [hnot, if_neg Bool.false_ne_true, if_neg Bool.false_ne_true]
    have hcmem := convertTimeout_mem ht
    rw [asUint32_inj (checkTimeout_mem hmem.1 hmem.2 hcmem.2).1 (checkTimeout_mem hmem.1 hmem.2 hcmem.2).2
      (checkTimeout_mem hmem.1 hmem.2 ht).1 (checkTimeout_mem hmem.1 hmem.2 ht).2, hconv]
    rcases hp : sec.period with - | p
    · have hno : sec.noPeriod = true := by simp [CheckSection.noPeriod, hp]
      simp [hno, checkTimeout_true]
    · have hz : p ≠ 0 := fun he => hper.1 (he ▸ hp)
      have hno : sec.noPeriod = false := by simp [CheckSection.noPeriod, hp, hz]
      have hpos := lim.pos
      have hle := lim.le
      have hc : sec.convertPeriod = clampPeriod 1000 300000 p := by simp [CheckSection.convertPeriod, hno, hp]
      have hx : sec.periodMs = clampPeriod lim.minimum lim.maximum p := by
        rw [CheckSection.periodMs, hno, hmin, hmax, hp]
        rfl
      have hc' : 0 < clampPeriod 1000 300000 p := by
        unfold clampPeriod
        dsimp only
        split_ifs <;> omega
      have hx' : 0 < clampPeriod lim.minimum lim.maximum p := by
        unfold clampPeriod
        dsimp only
        split_ifs <;> omega
      rw [hno, Option.isNone_some, hc, hx, checkTimeout_twice_iff hc' hx']
      constructor
      · rintro h q ⟨⟩ -
        exact h
      · intro h
        exact h p rfl rfl
  · have hyes : sec.isDeleted = true := by simp [CheckSection.isDeleted, hd]
    have hconv : sec.convertTimeout = 0 := by
      rw [CheckSection.convertTimeout, hdel, hyes, if_pos rfl]
    rw [hyes, hconv]
    simp

structure CheckSection.Sound (sec : CheckSection) : Prop where
  target : sec.target.isSome
  safeTarget : genericSafeString ((stringbuf 256 sec.target).getD []) = true
  module : sec.module.isSome
  safeName : genericSafeString sec.ownName = true
  someSchedule : sec.noPeriod = false ∨ sec.noOncheck = false
  oneSchedule : sec.noPeriod = true ∨ sec.noOncheck = true
  timeout : sec.timeout.isSome

theorem sound_of_refusal (h : sec.refusal = none) (hd : sec.convertDeleted = false) : sec.Sound := by
  unfold CheckSection.refusal at h
  rw [hd, if_neg Bool.false_ne_true] at h
  split_ifs at h with h1 h2 h3 h4 h5 h6 h7
  refine ⟨?_, ?_, ?_, ?_, ?_, ?_, ?_⟩
  · simpa [Option.isNone_iff_eq_none, Option.isSome_iff_ne_none] using h1
  · simpa using h2
  · simpa [Option.isNone_iff_eq_none, Option.isSome_iff_ne_none] using h3
  · simpa using h4
  · rcases hn : sec.noPeriod with - | -
    · exact .inl rfl
    · right
      simpa [hn] using h5
  · rcases hn : sec.noPeriod with - | -
    · right
      simpa [hn] using h6
    · exact .inl rfl
  · simpa [Option.isNone_iff_eq_none, Option.isSome_iff_ne_none] using h7

theorem flags_deleted (deleted busted disabled : Bool) (resolveRtype : Bytes) :
    (statusFlags deleted busted disabled resolveRtype).deleted = deleted := Bool.or_false _

theorem flags_disabled (deleted busted disabled : Bool) (resolveRtype : Bytes) :
    (statusFlags deleted busted disabled resolveRtype).disabled = (busted || disabled) := Bool.or_false _

theorem not_busted_of_sound (hs : sec.Sound) : sec.busted = false := by
  have ht := hs.target
  have hm := hs.module
  have hto := hs.timeout
  have h1 := hs.someSchedule
  have h2 := hs.oneSchedule
  unfold CheckSection.busted
  rw [hs.safeTarget, hs.safeName]
  cases hp : sec.noPeriod <;> cases ho : sec.noOncheck <;>
    simp_all [Option.isSome_iff_ne_none]

theorem ReadsAs.not_busted (hr : ReadsAs ut uuid sec data) (hlocal : sec.GivenLocally checks)
    (hs : sec.Sound) (hz : sec.period ≠ some 0) :
    data.busted (lim.inherited checks) = false := by
  have hno : sec.period.isNone = sec.noPeriod := by
    unfold CheckSection.noPeriod
    rcases hp : sec.period with - | p
    · rfl
    · have hp0 : p ≠ 0 := fun he => hz (he ▸ hp)
      simp [hp0]
  have hto : data.noTimeout (lim.inherited checks) = false := by
    rw [LmdbCheck.noTimeout, hr.timeout]
    rfl
  have h1 := hs.someSchedule
  have h2 := hs.oneSchedule
  unfold LmdbCheck.busted
  rw [hr.noPeriod hlocal, hr.noOncheck, hto, hno]
  cases hp : sec.noPeriod <;> cases ho : sec.noOncheck <;> simp_all

theorem ReadsAs.disabled_eq_iff (hr : ReadsAs ut uuid sec data)
    (hlocal : sec.GivenLocally checks) (href : sec.refusal = none)
    (hdel : sec.convertDeleted = sec.isDeleted) (hz : sec.period ≠ some 0) :
    (data.args ut (lim.inherited checks) uuid).flags.disabled = (sec.args ut uuid).flags.disabled ↔
      (sec.deleted = none → sec.disable ≠ some true) := by
  simp only [LmdbCheck.args, CheckSection.args, flags_disabled]
  rw [hr.isDeleted, hdel]
  rcases hd : sec.deleted with - | del
  · have hnot : sec.isDeleted = false := by simp [CheckSection.isDeleted, hd]
    have hs := sound_of_refusal href (hdel.trans hnot)
    rw [hnot, hr.not_busted hlocal hs hz, not_busted_of_sound hs]
    rcases sec.disable with - | - | - <;> simp
  · have hyes : sec.isDeleted = true := by simp [CheckSection.isDeleted, hd]
    simp [hyes]

theorem ReadsAs.target_eq_iff (hr : ReadsAs ut uuid sec data) (hlocal : sec.GivenLocally checks)
    (hdel : sec.convertDeleted = sec.isDeleted) :
    (data.args ut (lim.inherited checks) uuid).target = (sec.args ut uuid).target ↔
      (sec.deleted = none → KeepsText sec.target checks.target) := by
  simp only [LmdbCheck.args, CheckSection.args]
  rw [hr.isDeleted, hdel]
  rcases hd : sec.deleted with - | del
  · have hnot : ¬ sec.isDeleted = true := by simp [CheckSection.isDeleted, hd]
    rw [if_neg hnot, if_neg hnot, hr.target]
    simp only [CheckSection.storedAttr, true_implies]
    rw [hdel, if_neg hnot]
    exact orInherited_eq_iff (by norm_num) hlocal.target
  · have hyes : sec.isDeleted = true := by simp [CheckSection.isDeleted, hd]
    simp [hyes]

theorem ReadsAs.name_eq (hr : ReadsAs ut uuid sec data) (hdel : sec.convertDeleted = sec.isDeleted) :
    (data.args ut (lim.inherited checks) uuid).name = (sec.args ut uuid).name := by
  have hname : sec.ownName.take 255 = sec.ownName := by
    have hmodule : sec.moduleName.take 255 = sec.moduleName := by
      unfold CheckSection.moduleName
      rcases sec.module with - | m
      · rfl
      · simp [stringbuf, List.take_take]
    unfold CheckSection.ownName
    rcases sec.name with - | n
    · exact hmodule
    · simp [stringbuf, List.take_take]
  simp only [LmdbCheck.args, CheckSection.args]
  rw [hr.isDeleted, hdel]
  by_cases hd : sec.isDeleted = true
  · rw [if_pos hd, if_pos hd]
  · rw [if_neg hd, if_neg hd, hr.name]
    simp only [CheckSection.storedAttr]
    rw [hdel, if_neg hd]
    exact hname

theorem ReadsAs.seq_eq_iff (hr : ReadsAs ut uuid sec data) (hlt : sec.seqOrZero < 2 ^ 63) :
    (data.args ut (lim.inherited checks) uuid).normalized.seq = (sec.args ut uuid).normalized.seq ↔
      sec.seqOrZero < 10 ^ 15 := by
  simp only [LmdbCheck.args, CheckSection.args, CheckArgs.normalized, LmdbCheck.seqOrZero]
  rw [hr.seq]
  exact strtoll_take_decimalInt (by norm_num) hlt

end Fields

section Loaded

variable {ut : UuidText} {mods : ModuleNames} {lim : PeriodLimits} {uuid : Uuid} {checks : LmdbInherited}

theorem readsAs_stored (d : CheckDefinition mods lim) {entries : List (Bytes × Bytes)}
    (hp : entries.Perm ((d.sec.storedRows ut mods.names uuid).map (encodeRow uuid))) :
    ReadsAs ut uuid d.sec ((readRows mods.names uuid entries).check mods.names) where
  target := attr_stored d hp .target
  module := attr_stored d hp .module
  name := attr_stored d hp .name
  filterset := attr_stored d hp .filterset
  oncheck := attr_stored d hp .oncheck
  deleted := attr_stored d hp .deleted
  seq := by
    have hcut : ((decimalInt d.sec.seqOrZero).take 15).take 255 = (decimalInt d.sec.seqOrZero).take 15 := by
      rw [List.take_take, min_eq_right (by norm_num)]
    simp only [CheckRows.check, attr_stored d hp, CheckSection.storedAttr]
    exact congrArg (fun s => some (strtoll s)) hcut
  period := by
    simp only [CheckRows.check, attr_stored d hp, CheckSection.storedAttr]
    rcases d.sec.period with - | p
    · rfl
    · exact atoi_stringbuf convertPeriod_mem.1 convertPeriod_mem.2
  timeout := by
    simp only [CheckRows.check, attr_stored d hp, CheckSection.storedAttr]
    exact atoi_stringbuf (convertTimeout_mem d.timeout_lt).1 (convertTimeout_mem d.timeout_lt).2

theorem mconfigs_stored (d : CheckDefinition mods lim) {entries : List (Bytes × Bytes)}
    (hp : entries.Perm ((d.sec.storedRows ut mods.names uuid).map (encodeRow uuid))) :
    Option.Rel (List.Forall₂ (Option.Rel List.Perm))
      ((readRows mods.names uuid entries).check mods.names).mconfigs d.sec.mconfigs := by
  have hlen := length_mconfigs d
  have hm := d.mconfigs_length
  simp only [CheckRows.check]
  by_cases hn : mods.names = []
  · have hnone : d.sec.mconfigs = none := by simpa [hn] using hm
    rw [if_pos hn, hnone]
    exact .none
  · obtain ⟨l, hl⟩ : ∃ l, d.sec.mconfigs = some l := by
      rcases hc : d.sec.mconfigs with - | l
      · rw [hc] at hm
        simp [hn] at hm
      · exact ⟨l, rfl⟩
    rw [if_neg hn, hl]
    rw [hl, Option.getD_some] at hlen
    refine .some (List.forall₂_iff_get.mpr ⟨by simp [hlen], fun i hi hi' => ?_⟩)
    have hi'' : i < mods.names.length := hlen ▸ hi'
    have hrel := moptions_stored d hp hi''
    rw [hl, Option.getD_some, List.getElem?_eq_getElem hi', Option.getD_some] at hrel
    simpa using hrel

theorem toConvert_eq_some_iff {sec : CheckSection} {oldSeq : Int} :
    sec.toConvert ut oldSeq = .ok (some uuid) ↔
      sec.checkid ut = some uuid ∧ oldSeq ≤ sec.seqOrZero ∧ sec.refusal = none := by
  unfold CheckSection.toConvert
  constructor
  · intro h
    split_ifs at h with _ hseq
    · cases h
    · split at h
      · cases h
      · next id hid =>
        split at h
        · cases h
        · next href =>
          cases h
          exact ⟨hid, not_lt.mp hseq, href⟩
  · rintro ⟨hid, hseq, href⟩
    have huuid : ¬ sec.uuid.isNone := by
      intro hnone
      rw [CheckSection.checkid, Option.isNone_iff_eq_none.mp hnone] at hid
      cases hid
    rw [if_neg huuid, if_neg (not_lt.mpr hseq), hid]
    dsimp only
    rw [href]

theorem convertOneXmlCheck_ok {sec : CheckSection} {modules : List Bytes} {written : List (Bytes × Bytes)}
    (h : convertOneXmlCheck ut modules sec = .ok (uuid, written)) :
    sec.toConvert ut (-1) = .ok (some uuid) ∧ written = sec.encodedRows ut modules uuid ∧
      ∀ row ∈ written, row.1.length ≤ 511 := by
  unfold convertOneXmlCheck at h
  split at h
  · cases h
  · cases h
  · next id hid =>
    dsimp only at h
    split_ifs at h with hlong
    cases h
    exact ⟨hid, rfl, by simpa using hlong⟩

/-- A converted check is loaded as the check of the XML exactly if the definition is one
of those the converter carries over whole. -/
theorem converted_check_same_iff (d : CheckDefinition mods lim) (hlocal : d.sec.GivenLocally checks)
    {written entries : List (Bytes × Bytes)}
    (hc : convertOneXmlCheck ut mods.names d.sec = .ok (uuid, written)) (hp : entries.Perm written) :
    SameCheck d.sec.moduleName (((readRows mods.names uuid entries).check mods.names).moduleName
      (lim.inherited checks))
        (d.sec.args ut uuid) (((readRows mods.names uuid entries).check mods.names).args ut
          (lim.inherited checks) uuid) ↔
      d.sec.Converts lim checks := by
  obtain ⟨hto, rfl, -⟩ := convertOneXmlCheck_ok hc
  have href : d.sec.refusal = none := (toConvert_eq_some_iff.mp hto).2.2
  have hr := readsAs_stored d hp
  have hoptions := options_stored d hp
  have hmconfigs := mconfigs_stored d hp
  set data := (readRows mods.names uuid entries).check mods.names with hdata
  have hpmem : 0 ≤ data.periodMs (lim.inherited checks) ∧ data.periodMs (lim.inherited checks) < 2 ^ 31 :=
    hr.periodMs_mem hlocal
  have hxmem := xmlPeriod_mem d.minimum d.maximum
  have hperiod : (data.args ut (lim.inherited checks) uuid).period = (d.sec.args ut uuid).period ↔
      d.sec.period ≠ some 0 ∧ ∀ p, d.sec.period = some p → lim.KeepsPeriod p :=
    (asUint32_inj hpmem.1 hpmem.2 hxmem.1 hxmem.2).trans (hr.period_eq_iff hlocal d.minimum d.maximum)
  have hdeleted : (data.args ut (lim.inherited checks) uuid).flags.deleted =
    (d.sec.args ut uuid).flags.deleted ↔
      ∀ x, d.sec.deleted = some x → x.take 7 = deletedText := by
    simp only [LmdbCheck.args, CheckSection.args, flags_deleted]
    rw [hr.isDeleted, convertDeleted_eq_iff]
  have hseq : (data.args ut (lim.inherited checks) uuid).normalized.seq =
    (d.sec.args ut uuid).normalized.seq ↔
      d.sec.seqOrZero < 10 ^ 15 := hr.seq_eq_iff d.seq_lt
  have hmodule : data.moduleName (lim.inherited checks) = d.sec.moduleName ↔
    KeepsText d.sec.module checks.module := by
    rw [LmdbCheck.moduleName, hr.module]
    exact orInherited_eq_iff (by norm_num) hlocal.module
  have hfilterset : (data.args ut (lim.inherited checks) uuid).filterset = (d.sec.args ut uuid).filterset ↔
      KeepsText d.sec.filterset checks.filterset := by
    simp only [LmdbCheck.args, CheckSection.args, Option.some.injEq]
    rw [hr.filterset]
    exact orInherited_eq_iff (by norm_num) hlocal.filterset
  have honcheck : (data.args ut (lim.inherited checks) uuid).oncheck = (d.sec.args ut uuid).oncheck ↔
      KeepsText d.sec.oncheck checks.oncheck := by
    rw [← hr.oncheckText_eq_iff hlocal]
    simp only [LmdbCheck.args, CheckSection.args, CheckSection.noOncheck, decide_eq_true_eq]
    exact ite_eq_ite_iff _ _
  constructor
  · intro h
    have hdel := hdeleted.mp h.deleted
    have hper := hperiod.mp h.period
    have hdel' := convertDeleted_eq_iff.mpr hdel
    exact {
      deleted := hdel
      enabled := (hr.disabled_eq_iff hlocal href hdel' hper.1).mp h.disabled
      seq := hseq.mp h.seq
      period := hper.1
      limits := hper.2
      timeout := (hr.timeout_eq_iff hlocal d.minimum d.maximum d.timeout_lt hdel' hper).mp h.timeout
      target := (hr.target_eq_iff hlocal hdel').mp h.target
      module := hmodule.mp h.module
      filterset := hfilterset.mp h.filterset
      oncheck := honcheck.mp h.oncheck }
  · intro h
    have hper := And.intro h.period h.limits
    have hdel' := convertDeleted_eq_iff.mpr h.deleted
    exact {
      target := (hr.target_eq_iff hlocal hdel').mpr h.target
      module := hmodule.mpr h.module
      name := hr.name_eq hdel'
      filterset := hfilterset.mpr h.filterset
      period := hperiod.mpr hper
      timeout := (hr.timeout_eq_iff hlocal d.minimum d.maximum d.timeout_lt hdel' hper).mpr h.timeout
      oncheck := honcheck.mpr h.oncheck
      seq := hseq.mpr h.seq
      disabled := (hr.disabled_eq_iff hlocal href hdel' h.period).mpr h.enabled
      deleted := hdeleted.mpr h.deleted
      config := .some hoptions
      mconfigs := hmconfigs }

end Loaded

def defaultLimits : PeriodLimits := ⟨1000, 300000, by norm_num, by norm_num, by norm_num⟩

def noModules : ModuleNames := ⟨[], List.nodup_nil, by simp, by simp⟩

def oneCheckDefinition (seq : Int) (disable : Option Bool) (h : seq < 2 ^ 63) :
    CheckDefinition noModules defaultLimits where
  sec := { oneCheckSection false seq with disable := disable }
  on := rfl
  minimum := rfl
  maximum := rfl
  seq_lt := h
  timeout_lt := show (5000 : Int) < 2 ^ 31 by norm_num
  config := ⟨List.nodup_nil, by simp [oneCheckSection]⟩
  mconfigs_length := rfl
  mconfigs := by simp [oneCheckSection]

/-- A target, a module and a period above the check, which gives its own. -/
def aboveOne : LmdbInherited := ⟨some [120], some [121], none, none, none, some 30000, none, 0, 0⟩

def writtenPairs (d : CheckDefinition noModules defaultLimits) : List (Bytes × Bytes) :=
  (d.sec.storedRows standardUuidText [] (List.Vector.replicate 16 1)).map
    (encodeRow (List.Vector.replicate 16 1))

def loadedCheck (d : CheckDefinition noModules defaultLimits) : LmdbCheck :=
  (readRows noModules.names (List.Vector.replicate 16 1) (writtenPairs d)).check noModules.names

theorem converted_check_same_one :
    SameCheck (oneCheckDefinition 7 none (by norm_num)).sec.moduleName
      ((loadedCheck (oneCheckDefinition 7 none (by norm_num))).moduleName (defaultLimits.inherited aboveOne))
      ((oneCheckDefinition 7 none (by norm_num)).sec.args standardUuidText (List.Vector.replicate 16 1))
      ((loadedCheck (oneCheckDefinition 7 none (by norm_num))).args standardUuidText
        (defaultLimits.inherited aboveOne)
        (List.Vector.replicate 16 1)) := by
  have hc : convertOneXmlCheck standardUuidText noModules.names
    (oneCheckDefinition 7 none (by norm_num)).sec =
      .ok (List.Vector.replicate 16 1, writtenPairs (oneCheckDefinition 7 none (by norm_num))) := by
    decide +kernel
  have hlocal : (oneCheckDefinition 7 none (by norm_num)).sec.GivenLocally aboveOne :=
    ⟨fun _ => rfl, fun _ => rfl, nofun, nofun, fun _ => rfl⟩
  refine (converted_check_same_iff _ hlocal hc (List.Perm.refl _)).mpr
    ⟨?_, ?_, ?_, ?_, ?_, ?_, nofun, nofun, nofun, nofun⟩
  · rintro x ⟨⟩
  · intro _
    decide
  · decide
  · decide
  · rintro p ⟨⟩
    exact .inr ⟨by decide, by decide⟩
  · rintro p ⟨⟩ -
    exact .inl (by decide)

theorem converted_check_differs :
    ¬ SameCheck (oneCheckDefinition 7 (some true) (by norm_num)).sec.moduleName
        ((loadedCheck (oneCheckDefinition 7 (some true) (by norm_num))).moduleName
          (defaultLimits.inherited aboveOne))
        ((oneCheckDefinition 7 (some true) (by norm_num)).sec.args standardUuidText
          (List.Vector.replicate 16 1))
        ((loadedCheck (oneCheckDefinition 7 (some true) (by norm_num))).args standardUuidText
          (defaultLimits.inherited aboveOne) (List.Vector.replicate 16 1)) ∧
      convertOneXmlCheck standardUuidText noModules.names
        (oneCheckDefinition 7 (some true) (by norm_num)).sec =
        .ok (List.Vector.replicate 16 1, writtenPairs (oneCheckDefinition 7 (some true) (by norm_num))) ∧
      (loadedCheck (oneCheckDefinition 1700000000000000 none (by norm_num))).seq = some 170000000000000 := by
  refine ⟨fun h => ?_, by decide +kernel, by decide +kernel⟩
  have hd := h.disabled
  revert hd
  decide +kernel

end Reconnoiter
