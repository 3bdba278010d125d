import Reconnoiter.Filterset

/-! The two ways a filterset gets into memory: compiled from its XML, or converted to a
flatbuffer for LMDB and loaded from there. -/

namespace Reconnoiter

/-- What a rule of the XML says about one field: its child elements, its auto_add attribute and its
expression. -/
structure FieldXml where
  entries : List Bytes
  autoAdd : Option Int
  attr : Option Bytes

structure RuleXml where
  type : Option Bytes
  id : Option Bytes
  filterFlushPeriod : Option Int
  field : Field → FieldXml
  streamTags : Option Bytes
  measurementTags : Option Bytes

/-- `groupFlushPeriod` is the period of the nearest element between the filterset and
/noit/filtersets, `filtersetsFlushPeriod` that of the nearest from there up. -/
structure FiltersetXml where
  name : Option Bytes
  seq : Option Int
  filterFlushPeriod : Option Int
  groupFlushPeriod : Option Int
  filtersetsFlushPeriod : Option Int
  rules : List RuleXml

structure RuleHead where
  type : RuleType
  skipto : Option Bytes
  tagCat : Option Bytes
  tagVal : Option Bytes

def cutAttr (attr : Bytes) : Bytes := attr.take (maxMetricTaggedName - 1)

def bufferText (attr : Option Bytes) : Option Bytes := attr.map cutAttr

def colon : UInt8 := 58

def measurementTagHead (mt : Bytes) : RuleHead :=
  if colon ∈ mt then
    if upTo colon mt = [] then ⟨.addMeasurementTag, none, none, none⟩
    else ⟨.addMeasurementTag, none, some (upTo colon mt), some (after colon mt)⟩
  else ⟨.addMeasurementTag, none, some mt, none⟩

def ruleHead (type : Bytes) : Option RuleHead :=
  if !knownType type then none
  else if skiptoText.isPrefixOf type then some ⟨.skipto, some (type.drop skiptoText.length), none, none⟩
  else if addMeasurementTagText.isPrefixOf type then
    some (measurementTagHead (type.drop addMeasurementTagText.length))
  else if type = acceptText ∨ type = allowText then some ⟨.accept, none, none, none⟩
  else some ⟨.deny, none, none, none⟩

def RuleXml.head (x : RuleXml) : Option RuleHead := (bufferText x.type).bind ruleHead

def defaultFilterFlushPeriodMs : Int := 300000

def flushInterval (ffp : Int) : TimeVal := ⟨(ffp / 1000).toNat, (ffp % 1000).toNat⟩

section Backends

variable {Re Ast : Type} (env : FilterEnv Re Ast)

def htKey (f : Field) (htstr : Bytes) : Bytes :=
  if f = .metric ∧ 0 < (env.canonicalize htstr).1 then (env.canonicalize htstr).2 else htstr

def ruleCompile (longre : Bytes) : Matcher Re :=
  match env.pcreCompile longre with
  | some p => ⟨none, 0, some p, false⟩
  | none => ⟨none, 0, none, true⟩

def Matcher.blank : Matcher Re := ⟨none, 0, none, false⟩

inductive TagSearchKind where
  | stream
  | measurement
deriving DecidableEq

def FilterRule.setSearch (r : FilterRule Re Ast) (search : Ast) : TagSearchKind → FilterRule Re Ast
  | .stream => { r with stsearch := some search }
  | .measurement => { r with mtsearch := some search }

def FilterRule.tagsCompile (kind : TagSearchKind) (expr : Bytes) (r : FilterRule Re Ast) :
    FilterRule Re Ast :=
  if (r.matcher .metric).ht.isSome then r
  else
    match env.searchParse expr with
    | some search => r.setSearch search kind
    | none =>
      { r with matcher := fun f => if f = .metric then { r.matcher f with override := true }
        else r.matcher f }

def FilterRule.compileTags (streamTags measurementTags : Option Bytes) (r : FilterRule Re Ast) :
    FilterRule Re Ast :=
  let r := streamTags.elim r (r.tagsCompile env .stream)
  measurementTags.elim r (r.tagsCompile env .measurement)

def newRule (ruleid : Option Bytes) (head : RuleHead) (matcher : Field → Matcher Re) (interval : TimeVal) :
    FilterRule Re Ast :=
  { ruleid, skipto := head.skipto, skiptoRule := none, tagCat := head.tagCat, tagVal := head.tagVal
    type := head.type, matcher, stsearch := none, mtsearch := none
    lastFlush := .zero, flushInterval := interval }

def resolveSkipto : Nat → List (FilterRule Re Ast) → List (FilterRule Re Ast)
  | _, [] => []
  | i, r :: rs =>
    { r with skiptoRule := r.skipto.bind fun s => (rs.findIdx? (·.ruleid = some s)).map (i + 1 + ·) } ::
      resolveSkipto (i + 1) rs

def htCompile (f : Field) (x : FieldXml) : Matcher Re :=
  let autoMax := x.autoAdd.getD 0
  if x.entries ≠ [] ∨ 0 < autoMax then ⟨some (x.entries.map (htKey env f)).toFinset, autoMax, none, false⟩
  else x.attr.elim .blank (ruleCompile env)

def FiltersetXml.nearestPeriod (fs : FiltersetXml) (x : RuleXml) : Option Int :=
  x.filterFlushPeriod <|> fs.filterFlushPeriod <|> fs.groupFlushPeriod <|> fs.filtersetsFlushPeriod

def FiltersetXml.xmlPeriod (fs : FiltersetXml) (x : RuleXml) : Int :=
  let ffp := (fs.nearestPeriod x).getD defaultFilterFlushPeriodMs
  if ffp < 0 then 0 else ffp

def compileXmlRule (fs : FiltersetXml) (x : RuleXml) : Option (FilterRule Re Ast) :=
  x.head.map fun head =>
    (newRule (bufferText x.id) head (fun f => htCompile env f (x.field f))
      (flushInterval (fs.xmlPeriod x))).compileTags env x.streamTags x.measurementTags

/-- `noit_filter_compile_add` up to the load of the set; none where it is refused. -/
def compileXml (fs : FiltersetXml) : Option (Filterset (FilterRule Re Ast)) :=
  (bufferText fs.name).bind fun name =>
    if fs.seq.getD 0 < 0 then none
    else some ⟨name, fs.seq.getD 0, resolveSkipto 0 (fs.rules.filterMap (compileXmlRule env fs))⟩

structure FieldLmdb where
  autoAdd : Int
  autoAddPresent : Bool
  hashRules : Option (Finset Bytes)
  attr : Option Bytes

structure RuleLmdb where
  head : RuleHead
  ruleid : Option Bytes
  filterFlushPeriod : Int
  filterFlushPeriodPresent : Bool
  field : Field → FieldLmdb
  streamTagsTagStr : Option Bytes
  measurementTagsTagStr : Option Bytes

def getNonnegative : Option Int → Int × Bool
  | none => (0, false)
  | some v => if v < 0 then (0, false) else (v, true)

def fieldToMemory (x : FieldXml) : FieldLmdb where
  autoAdd := (getNonnegative x.autoAdd).1
  autoAddPresent := (getNonnegative x.autoAdd).2
  hashRules := if x.entries = [] then none else some x.entries.toFinset
  attr := x.attr

def oneXmlRuleToMemory (x : RuleXml) : Option RuleLmdb :=
  x.head.map fun head =>
    { head, ruleid := bufferText x.id
      filterFlushPeriod := (getNonnegative x.filterFlushPeriod).1
      filterFlushPeriodPresent := (getNonnegative x.filterFlushPeriod).2
      field := fun f => fieldToMemory (x.field f)
      streamTagsTagStr := x.streamTags, measurementTagsTagStr := x.measurementTags }

/-- The values of a table are a vector in the order of the hash iteration, of which
only the elements are kept here. -/
inductive RuleDataFb where
  | hashValue (autoAddMax : Int) (values : Finset Bytes)
  | attributeValue (regex : Bytes)

structure RuleInfoFb where
  type : Bytes
  data : Option RuleDataFb

structure RuleFb where
  id : Option Bytes
  flushPeriod : Option Int
  ruleType : Bytes
  skiptoValue : Option Bytes
  measurementTagValue : Option (Bytes × Option Bytes)
  info : List RuleInfoFb
  tags : List (Bytes × Bytes)

structure FiltersetFb where
  name : Bytes
  seq : Int
  flushPeriod : Option Int
  rules : List RuleFb

def skiptoNoColon : Bytes := skiptoText.dropLast

def addMeasurementTagNoColon : Bytes := addMeasurementTagText.dropLast

def Field.text : Field → Bytes
  | .target => [116, 97, 114, 103, 101, 116]
  | .module => [109, 111, 100, 117, 108, 101]
  | .name => [110, 97, 109, 101]
  | .metric => [109, 101, 116, 114, 105, 99]

def TagSearchKind.text : TagSearchKind → Bytes
  | .stream => [115, 116, 114, 101, 97, 109, 95, 116, 97, 103, 115]
  | .measurement => [109, 101, 97, 115, 117, 114, 101, 109, 101, 110, 116, 95, 116, 97, 103, 115]

def RuleType.text : RuleType → Bytes
  | .accept => acceptText
  | .deny => denyText
  | .skipto => skiptoNoColon
  | .addMeasurementTag => addMeasurementTagNoColon

def FieldLmdb.autoAdds (x : FieldLmdb) : Bool := x.autoAddPresent && 0 < x.autoAdd

def FieldLmdb.data (x : FieldLmdb) : Option RuleDataFb :=
  if x.hashRules.isSome ∨ x.autoAdds then
    some (.hashValue (if x.autoAdds then x.autoAdd else 0) (x.hashRules.getD ∅))
  else x.attr.map .attributeValue

def FieldLmdb.info (f : Field) (x : FieldLmdb) : Option RuleInfoFb :=
  if x.hashRules.isSome ∨ x.attr.isSome ∨ (x.autoAddPresent ∧ x.autoAdd ≠ 0) then
    some ⟨f.text, x.data⟩
  else none

def RuleLmdb.toFb (x : RuleLmdb) : RuleFb where
  id := x.ruleid
  flushPeriod := if x.filterFlushPeriodPresent then some x.filterFlushPeriod else none
  ruleType := x.head.type.text
  skiptoValue := if x.head.type = .skipto then x.head.skipto else none
  measurementTagValue :=
    if x.head.type = .addMeasurementTag then x.head.tagCat.map fun cat => (cat, x.head.tagVal) else none
  info := [Field.target, .module, .name, .metric].filterMap fun f => (x.field f).info f
  tags := (x.streamTagsTagStr.map fun s => (TagSearchKind.stream.text, s)).toList ++
    (x.measurementTagsTagStr.map fun s => (TagSearchKind.measurement.text, s)).toList

/-- `noit_filters_lmdb_convert_one_xml_filterset_to_lmdb` up to the write. -/
def convertXml (fs : FiltersetXml) : Option FiltersetFb :=
  fs.name.map fun name =>
    { name, seq := fs.seq.getD 0, flushPeriod := fs.filterFlushPeriod
      rules := (fs.rules.filterMap oneXmlRuleToMemory).map RuleLmdb.toFb }

def dataCompile (f : Field) (m : Matcher Re) : RuleDataFb → Matcher Re
  | .hashValue autoAddMax values =>
    let autoMax := if autoAddMax < 0 then 0 else autoAddMax
    if autoMax ≠ 0 ∨ values.card ≠ 0 then
      { m with ht := some (values.image (htKey env f)), autoHashMax := autoMax }
    else m
  | .attributeValue regex => { ruleCompile env regex with ht := m.ht, autoHashMax := m.autoHashMax }

def FilterRule.setMatcher (r : FilterRule Re Ast) (f : Field) (m : Matcher Re) : FilterRule Re Ast :=
  { r with matcher := Function.update r.matcher f m }

def loadInfo (r : FilterRule Re Ast) (info : RuleInfoFb) : FilterRule Re Ast :=
  match [Field.target, .module, .name, .metric].find? (·.text = info.type) with
  | none => r
  | some f => info.data.elim r fun d => r.setMatcher f (dataCompile env f (r.matcher f) d)

def loadTag (r : FilterRule Re Ast) (tag : Bytes × Bytes) : FilterRule Re Ast :=
  match [TagSearchKind.stream, .measurement].find? (·.text = tag.1) with
  | none => r
  | some kind => r.tagsCompile env kind tag.2

def loadHead (x : RuleFb) : RuleHead :=
  if x.ruleType = acceptText then ⟨.accept, none, none, none⟩
  else if x.ruleType = denyText then ⟨.deny, none, none, none⟩
  else if x.ruleType = skiptoNoColon then ⟨.skipto, x.skiptoValue, none, none⟩
  else if x.ruleType = addMeasurementTagNoColon then
    ⟨.addMeasurementTag, none, x.measurementTagValue.map Prod.fst, x.measurementTagValue.bind Prod.snd⟩
  else ⟨.deny, none, none, none⟩

def loadRule (localDefault : Int) (x : RuleFb) : FilterRule Re Ast :=
  let ffp := x.flushPeriod.getD localDefault
  let rule : FilterRule Re Ast :=
    newRule x.id (loadHead x) (fun _ => .blank) (flushInterval (if ffp < 0 then 0 else ffp))
  x.tags.foldl (loadTag env) (x.info.foldl (loadInfo env) rule)

def globalDefault (filtersetsFlushPeriod : Option Int) : Int :=
  let period := filtersetsFlushPeriod.getD defaultFilterFlushPeriodMs
  if period < 0 then defaultFilterFlushPeriodMs else period

/-- `noit_filters_lmdb_load_one_from_db_locked` up to the load of the set. -/
def loadOne (global : Int) (fb : FiltersetFb) : Option (Filterset (FilterRule Re Ast)) :=
  let localDefault := fb.flushPeriod.getD global
  let localDefault := if localDefault < 0 then 0 else localDefault
  if fb.seq < 0 then none
  else some ⟨fb.name, fb.seq, resolveSkipto 0 (fb.rules.map (loadRule env localDefault))⟩

/-! ### Rules of the two origins -/

def Matcher.capped (m : Matcher Re) : Matcher Re := { m with autoHashMax := max 0 m.autoHashMax }

def FilterRule.capped (r : FilterRule Re Ast) (interval last : TimeVal) : FilterRule Re Ast :=
  { r with matcher := fun f => (r.matcher f).capped, flushInterval := interval, lastFlush := last }

def FilterRule.FlushesAs (r : FilterRule Re Ast) (interval last : TimeVal) : Prop :=
  (interval = r.flushInterval ∧ last = r.lastFlush ∧
      (interval = .zero ∨ ∀ f, 0 ≤ (r.matcher f).autoHashMax)) ∨
    ((∀ f, (r.matcher f).autoHashMax ≤ 0) ∧
      (r.flushInterval = .zero ∨ ∀ f, (r.matcher f).autoHashMax = 0))

def RuleSim (x l : FilterRule Re Ast) : Prop :=
  ∃ interval last, l = x.capped interval last ∧ x.FlushesAs interval last

theorem need_capped (r : FilterRule Re Ast) (interval last : TimeVal) (c : FilterCall)
    (mtset : List FilterTag) :
    (r.capped interval last).need env c mtset = r.need env c mtset := by
  funext f
  cases f <;> rfl

theorem checkAdd_capped (m : Matcher Re) (need : Bool) : m.capped.checkAdd need = m.checkAdd need := by
  rcases le_or_gt m.autoHashMax 0 with h | h
  · simp [Matcher.checkAdd, Matcher.capped, h, not_lt.mpr h]
  · simp [Matcher.checkAdd, Matcher.capped, max_eq_right h.le, h]

theorem update_capped (m : Matcher Re) (need : Bool) (value : Bytes) :
    m.capped.update need value = (m.update need value).capped := by
  cases need <;> rfl

theorem flushed_of_zero {m : Matcher Re} (h : m.autoHashMax = 0) : m.flushed = m := if_pos h

theorem autoHashMax_flushed (m : Matcher Re) : m.flushed.autoHashMax = m.autoHashMax := by
  unfold Matcher.flushed
  split <;> rfl

theorem capped_of_nonneg {m : Matcher Re} (h : 0 ≤ m.autoHashMax) : m.capped = m := by
  simp [Matcher.capped, max_eq_right h]

theorem flush_eq_or (r : FilterRule Re Ast) (now : TimeVal) :
    r.flush now = r ∨
      r.flush now = { r with matcher := fun f => (r.matcher f).flushed, lastFlush := now } := by
  unfold FilterRule.flush
  split
  · exact .inl rfl
  · split
    · exact .inl rfl
    · exact .inr rfl

theorem flush_of_zero_interval {r : FilterRule Re Ast} (h : r.flushInterval = .zero) (now : TimeVal) :
    r.flush now = r := if_pos h

theorem flush_of_no_limit {r : FilterRule Re Ast} (h : ∀ f, (r.matcher f).autoHashMax = 0) (now : TimeVal) :
    ∃ last, r.flush now = { r with lastFlush := last } := by
  rcases flush_eq_or r now with he | he
  · exact ⟨r.lastFlush, he⟩
  · refine ⟨now, he.trans ?_⟩
    have hm : (fun f => (r.matcher f).flushed) = r.matcher := funext fun f => flushed_of_zero (h f)
    rw [hm]

theorem RuleSim.flush {x l : FilterRule Re Ast} (h : RuleSim x l) (now : TimeVal) :
    RuleSim (x.flush now) (l.flush now) := by
  obtain ⟨interval, last, rfl, hf⟩ := h
  rcases hf with ⟨rfl, rfl, hf⟩ | ⟨hneg, hf⟩
  · rcases hf with hz | hpos
    · rw [flush_of_zero_interval hz, flush_of_zero_interval (r := x.capped _ _) hz]
      exact ⟨_, _, rfl, .inl ⟨rfl, rfl, .inl hz⟩⟩
    · have hc : x.capped x.flushInterval x.lastFlush = x := by
        have hm : (fun f => (x.matcher f).capped) = x.matcher := funext fun f => capped_of_nonneg (hpos f)
        rw [FilterRule.capped, hm]
      rw [hc]
      have hpos' : ∀ f, 0 ≤ ((x.flush now).matcher f).autoHashMax := by
        rcases flush_eq_or x now with he | he
        · rwa [he]
        · rw [he]
          exact fun f => (autoHashMax_flushed _).symm ▸ hpos f
      refine ⟨(x.flush now).flushInterval, (x.flush now).lastFlush, ?_, .inl ⟨rfl, rfl, .inr hpos'⟩⟩
      have hm : (fun f => ((x.flush now).matcher f).capped) = (x.flush now).matcher :=
        funext fun f => capped_of_nonneg (hpos' f)
      rw [FilterRule.capped, hm]
  · have hl : ∀ f, ((x.capped interval last).matcher f).autoHashMax = 0 := fun f => max_eq_left (hneg f)
    obtain ⟨last', hl'⟩ := flush_of_no_limit hl now
    obtain ⟨last'', hx⟩ : ∃ last'', x.flush now = { x with lastFlush := last'' } := by
      rcases hf with hz | hz
      · exact ⟨x.lastFlush, flush_of_zero_interval hz now⟩
      · exact flush_of_no_limit hz now
    rw [hl', hx]
    exact ⟨interval, last', rfl, .inr ⟨hneg, hf⟩⟩

theorem RuleSim.update {x l : FilterRule Re Ast} (h : RuleSim x l) (need : Field → Bool)
    (value : Field → Bytes) :
    RuleSim { x with matcher := fun f => (x.matcher f).update (need f) (value f) }
      { l with matcher := fun f => (l.matcher f).update (need f) (value f) } := by
  obtain ⟨interval, last, rfl, hf⟩ := h
  have hauto : ∀ f, ((x.matcher f).update (need f) (value f)).autoHashMax = (x.matcher f).autoHashMax := by
    intro f
    unfold Matcher.update
    split <;> rfl
  refine ⟨interval, last, ?_, ?_⟩
  · simp only [FilterRule.capped, update_capped]
  · simpa only [FilterRule.FlushesAs, hauto] using hf

theorem RuleSim.need_eq {x l : FilterRule Re Ast} (h : RuleSim x l) (c : FilterCall)
    (mtset : List FilterTag) :
    l.need env c mtset = x.need env c mtset := by
  obtain ⟨interval, last, rfl, -⟩ := h
  exact need_capped env x interval last c mtset

theorem RuleSim.taken_eq {x l : FilterRule Re Ast} (h : RuleSim x l)
    (metric : FilterMetric) (st : FilterState) :
    l.taken env metric st = x.taken env metric st := by
  obtain ⟨interval, last, rfl, -⟩ := h
  rfl

theorem RuleSim.checkAdd_eq {x l : FilterRule Re Ast} (h : RuleSim x l) (f : Field) (need : Bool) :
    (l.matcher f).checkAdd need = (x.matcher f).checkAdd need := by
  obtain ⟨interval, last, rfl, -⟩ := h
  exact checkAdd_capped _ need

theorem RuleSim.applyRule {x l : FilterRule Re Ast} (h : RuleSim x l) (c : FilterCall) (st : FilterState) :
    RuleSim (applyRule env c x st).1 (applyRule env c l st).1 ∧
      (Reconnoiter.applyRule env c l st).2 = (Reconnoiter.applyRule env c x st).2 := by
  have hfl := h.flush c.now
  unfold Reconnoiter.applyRule
  simp only [h.need_eq env, h.taken_eq env, hfl.checkAdd_eq, hfl.taken_eq env]
  split
  · exact ⟨h, rfl⟩
  · split
    · split
      · exact ⟨hfl, rfl⟩
      · exact ⟨hfl.update _ _, rfl⟩
    · exact ⟨hfl, rfl⟩

theorem applyRules_sim (c : FilterCall) {xs ls : List (FilterRule Re Ast)} (h : List.Forall₂ RuleSim xs ls)
    (i : Nat) (st : FilterState) :
    List.Forall₂ RuleSim (applyRules env c i xs st).1 (applyRules env c i ls st).1 ∧
      (applyRules env c i ls st).2 = (applyRules env c i xs st).2 := by
  induction h generalizing i st with
  | nil => exact ⟨.nil, rfl⟩
  | @cons x l xs ls hr hrest ih =>
    by_cases hs : st.skiptoRule.any (· ≠ i) = true
    · simp only [applyRules, hs, if_true]
      exact ⟨.cons hr (ih (i + 1) st).1, (ih (i + 1) st).2⟩
    · obtain ⟨hr', he⟩ := hr.applyRule env c { st with skiptoRule := none }
      simp only [applyRules, hs, Bool.false_eq_true, if_false]
      generalize applyRule env c x { st with skiptoRule := none } = ax at hr' he
      generalize applyRule env c l { st with skiptoRule := none } = al at hr' he
      obtain ⟨x', rx⟩ := ax
      obtain ⟨l', rl⟩ := al
      cases he
      cases rx with
      | stop ret => exact ⟨.cons hr' hrest, rfl⟩
      | next st' => exact ⟨.cons hr' (ih (i + 1) st').1, (ih (i + 1) st').2⟩

theorem applyFilterset_sim {xs ls : List (FilterRule Re Ast)} (h : List.Forall₂ RuleSim xs ls)
    (e : FilterEvent) :
    List.Forall₂ RuleSim (applyFilterset env xs e).1 (applyFilterset env ls e).1 ∧
      (applyFilterset env ls e).2 = (applyFilterset env xs e).2 := by
  unfold applyFilterset
  extract_lets name tags c
  obtain ⟨hr, he⟩ := applyRules_sim env c h 0 ⟨none, tags.2.2, none, false⟩
  generalize applyRules env c 0 xs ⟨none, tags.2.2, none, false⟩ = ax at hr he
  generalize applyRules env c 0 ls ⟨none, tags.2.2, none, false⟩ = al at hr he
  obtain ⟨xs', ret, st⟩ := ax
  obtain ⟨ls', ret', st'⟩ := al
  cases he
  cases ret with
  | none => exact ⟨hr, rfl⟩
  | some ret => exact ⟨hr, rfl⟩

theorem runFilterset_sim {xs ls : List (FilterRule Re Ast)} (h : List.Forall₂ RuleSim xs ls)
    (events : List FilterEvent) : runFilterset env ls events = runFilterset env xs events := by
  induction events generalizing xs ls with
  | nil => rfl
  | cons e es ih =>
    obtain ⟨hr, he⟩ := applyFilterset_sim env h e
    simp only [runFilterset, he, ih hr]

/-! ### Loading what was converted -/

theorem find_field_text (f : Field) :
    [Field.target, .module, .name, .metric].find? (·.text = f.text) = some f := by
  cases f <;> decide

theorem find_kind_text (kind : TagSearchKind) :
    [TagSearchKind.stream, .measurement].find? (·.text = kind.text) = some kind := by
  cases kind <;> decide

theorem loadHead_toFb {x : RuleLmdb} {type : Bytes} (h : ruleHead type = some x.head) :
    loadHead x.toFb = x.head := by
  obtain ⟨head, id, period, present, field, st, mt⟩ := x
  replace h : ruleHead type = some head := h
  unfold ruleHead measurementTagHead at h
  split_ifs at h <;> cases h <;> rfl

theorem autoAdds_toMemory (x : FieldXml) : (fieldToMemory x).autoAdds = decide (0 < x.autoAdd.getD 0) := by
  unfold FieldLmdb.autoAdds fieldToMemory
  rcases ha : x.autoAdd with - | a
  · simp [getNonnegative]
  · by_cases hn : a < 0
    · simp [getNonnegative, hn, hn.le]
    · simp [getNonnegative, hn]

theorem autoAdd_toMemory (x : FieldXml) : (fieldToMemory x).autoAdd = max 0 (x.autoAdd.getD 0) := by
  unfold fieldToMemory
  rcases ha : x.autoAdd with - | a
  · simp [getNonnegative]
  · by_cases hn : a < 0
    · simp [getNonnegative, hn, hn.le]
    · simp [getNonnegative, hn, not_lt.mp hn]

theorem hashRules_toMemory (x : FieldXml) : (fieldToMemory x).hashRules.getD ∅ = x.entries.toFinset := by
  unfold fieldToMemory
  by_cases he : x.entries = []
  · simp [he]
  · simp [he]

theorem isSome_hashRules_toMemory (x : FieldXml) :
    (fieldToMemory x).hashRules.isSome = decide (x.entries ≠ []) := by
  unfold fieldToMemory
  by_cases he : x.entries = []
  · simp [he]
  · simp [he]

theorem info_of_table {f : Field} {x : FieldXml} (h : x.entries ≠ [] ∨ 0 < x.autoAdd.getD 0) :
    (fieldToMemory x).info f =
      some ⟨f.text, some (.hashValue (max 0 (x.autoAdd.getD 0)) x.entries.toFinset)⟩ := by
  have hd : (fieldToMemory x).hashRules.isSome ∨ (fieldToMemory x).autoAdds := by
    simpa [isSome_hashRules_toMemory, autoAdds_toMemory] using h
  have hc : (fieldToMemory x).hashRules.isSome ∨ (fieldToMemory x).attr.isSome ∨
      ((fieldToMemory x).autoAddPresent ∧ (fieldToMemory x).autoAdd ≠ 0) := by
    rcases hd with hd | hd
    · exact .inl hd
    · have hd' : (fieldToMemory x).autoAddPresent = true ∧ 0 < (fieldToMemory x).autoAdd := by
        simpa [FieldLmdb.autoAdds] using hd
      exact .inr (.inr ⟨hd'.1, hd'.2.ne'⟩)
  have hmax : (if (fieldToMemory x).autoAdds then (fieldToMemory x).autoAdd else 0) =
    max 0 (x.autoAdd.getD 0) := by
    rw [autoAdds_toMemory, autoAdd_toMemory]
    rcases le_or_gt (x.autoAdd.getD 0) 0 with ha | ha
    · simp [not_lt.mpr ha, ha]
    · simp [ha]
  rw [FieldLmdb.info, if_pos hc, FieldLmdb.data, if_pos hd, hmax, hashRules_toMemory]

theorem info_of_no_table {f : Field} {x : FieldXml} (h : ¬ (x.entries ≠ [] ∨ 0 < x.autoAdd.getD 0)) :
    (fieldToMemory x).info f = x.attr.map fun regex => ⟨f.text, some (.attributeValue regex)⟩ := by
  have hd : ¬ ((fieldToMemory x).hashRules.isSome ∨ (fieldToMemory x).autoAdds) := by
    simpa [isSome_hashRules_toMemory, autoAdds_toMemory] using h
  have ha : (fieldToMemory x).autoAdd = 0 := by
    rw [autoAdd_toMemory]
    exact max_eq_left (not_lt.mp (fun hlt => h (.inr hlt)))
  have hs : ¬ (fieldToMemory x).hashRules.isSome := fun hs => hd (.inl hs)
  have hattr : (fieldToMemory x).attr = x.attr := rfl
  rw [FieldLmdb.info, FieldLmdb.data, if_neg hd, hattr]
  rcases x.attr with - | regex
  · rw [if_neg (by simp [hs, ha])]
    rfl
  · rw [if_pos (.inr (.inl rfl))]
    rfl

theorem loadInfo_text (r : FilterRule Re Ast) (f : Field) (d : RuleDataFb) :
    loadInfo env r ⟨f.text, some d⟩ = r.setMatcher f (dataCompile env f (r.matcher f) d) := by
  rw [loadInfo, find_field_text]
  rfl

theorem dataCompile_hashValue (f : Field) {x : FieldXml} (h : x.entries ≠ [] ∨ 0 < x.autoAdd.getD 0) :
    dataCompile env f .blank (.hashValue (max 0 (x.autoAdd.getD 0)) x.entries.toFinset) =
      (htCompile env f x).capped := by
  have hne : max 0 (x.autoAdd.getD 0) ≠ 0 ∨ x.entries.toFinset.card ≠ 0 := by
    rcases h with h | h
    · right
      simpa using h
    · left
      rw [max_eq_right h.le]
      exact h.ne'
  have hcap : (if max 0 (x.autoAdd.getD 0) < 0 then 0 else max 0 (x.autoAdd.getD 0)) =
    max 0 (x.autoAdd.getD 0) :=
    if_neg (not_lt.mpr (le_max_left _ _))
  have himage : x.entries.toFinset.image (htKey env f) = (x.entries.map (htKey env f)).toFinset := by
    ext b
    simp
  simp only [dataCompile, hcap]
  rw [if_pos hne, himage, htCompile, if_pos h]
  rfl

theorem dataCompile_attributeValue (f : Field) (regex : Bytes) :
    dataCompile env f .blank (.attributeValue regex) = (ruleCompile env regex).capped := by
  rcases hp : env.pcreCompile regex with - | p
  · simp [dataCompile, ruleCompile, hp, Matcher.capped, Matcher.blank]
  · simp [dataCompile, ruleCompile, hp, Matcher.capped, Matcher.blank]

theorem load_field (r : FilterRule Re Ast) (f : Field) (x : FieldXml) (h : r.matcher f = .blank) :
    ((fieldToMemory x).info f).elim r (loadInfo env r) = r.setMatcher f (htCompile env f x).capped := by
  by_cases ht : x.entries ≠ [] ∨ 0 < x.autoAdd.getD 0
  · rw [info_of_table ht, Option.elim_some, loadInfo_text, h, dataCompile_hashValue env f ht]
  · rw [info_of_no_table ht, htCompile, if_neg ht]
    rcases x.attr with - | regex
    · have hb : r.setMatcher f Matcher.blank = r := by
        rw [FilterRule.setMatcher, ← h, Function.update_eq_self]
      exact hb.symm
    · rw [Option.map_some, Option.elim_some, loadInfo_text, h, dataCompile_attributeValue]
      rfl

theorem load_infos_cons (r : FilterRule Re Ast) (field : Field → FieldXml) (f : Field) (l : List Field) :
    ((f :: l).filterMap fun f => (fieldToMemory (field f)).info f).foldl (loadInfo env) r =
      (l.filterMap fun f => (fieldToMemory (field f)).info f).foldl (loadInfo env)
        (((fieldToMemory (field f)).info f).elim r (loadInfo env r)) := by
  rcases hi : (fieldToMemory (field f)).info f with - | info
  · simp [hi]
  · simp [hi]

theorem load_infos (field : Field → FieldXml) {l : List Field} (hl : l.Nodup) {r : FilterRule Re Ast}
    (h : ∀ f ∈ l, r.matcher f = .blank) :
    (l.filterMap fun f => (fieldToMemory (field f)).info f).foldl (loadInfo env) r =
      { r with matcher := fun f => if f ∈ l then (htCompile env f (field f)).capped else r.matcher f } := by
  induction l generalizing r with
  | nil => simp
  | cons f l ih =>
    obtain ⟨hf, hl⟩ := List.nodup_cons.mp hl
    have hrest : ∀ g ∈ l, (r.setMatcher f (htCompile env f (field f)).capped).matcher g = .blank := by
      intro g hg
      have hne : g ≠ f := fun he => hf (he ▸ hg)
      exact (Function.update_of_ne hne _ _).trans (h g (List.mem_cons_of_mem _ hg))
    rw [load_infos_cons, load_field env r f _ (h f List.mem_cons_self), ih hl hrest]
    simp only [FilterRule.setMatcher]
    congr 1
    funext g
    by_cases hg : g = f
    · subst hg
      simp [hf]
    · simp [hg]

theorem loadTag_text (r : FilterRule Re Ast) (kind : TagSearchKind) (expr : Bytes) :
    loadTag env r (kind.text, expr) = r.tagsCompile env kind expr := by
  rw [loadTag, find_kind_text]

theorem load_tags (r : FilterRule Re Ast) (st mt : Option Bytes) :
    ((st.map fun s => (TagSearchKind.stream.text, s)).toList ++
        (mt.map fun s => (TagSearchKind.measurement.text, s)).toList).foldl (loadTag env) r =
      r.compileTags env st mt := by
  rcases st with - | st <;> rcases mt with - | mt <;> simp [loadTag_text, FilterRule.compileTags]

theorem tagsCompile_capped (r : FilterRule Re Ast) (interval last : TimeVal)
    (kind : TagSearchKind) (expr : Bytes) :
    (r.capped interval last).tagsCompile env kind expr =
    (r.tagsCompile env kind expr).capped interval last := by
  have hht : ((r.capped interval last).matcher .metric).ht = (r.matcher .metric).ht := rfl
  unfold FilterRule.tagsCompile
  rw [hht]
  split
  · rfl
  · cases env.searchParse expr with
    | some search => cases kind <;> rfl
    | none =>
      simp only [FilterRule.capped]
      congr 1
      funext f
      cases f <;> rfl

theorem compileTags_capped (r : FilterRule Re Ast) (interval last : TimeVal) (st mt : Option Bytes) :
    (r.capped interval last).compileTags env st mt = (r.compileTags env st mt).capped interval last := by
  rcases st with - | st <;> rcases mt with - | mt <;> simp [FilterRule.compileTags, tagsCompile_capped]

def FiltersetXml.lmdbPeriod (fs : FiltersetXml) (x : RuleXml) : Int :=
  let localDefault := fs.filterFlushPeriod.getD (globalDefault fs.filtersetsFlushPeriod)
  let localDefault := if localDefault < 0 then 0 else localDefault
  if (getNonnegative x.filterFlushPeriod).2 then (getNonnegative x.filterFlushPeriod).1 else localDefault

theorem mem_fields (f : Field) : f ∈ [Field.target, .module, .name, .metric] := by
  cases f <;> decide

theorem load_period {fs : FiltersetXml} {localDefault : Int}
    (hd : localDefault = if fs.filterFlushPeriod.getD (globalDefault fs.filtersetsFlushPeriod) < 0 then 0
      else fs.filterFlushPeriod.getD (globalDefault fs.filtersetsFlushPeriod)) (x : RuleXml) :
    (if (if (getNonnegative x.filterFlushPeriod).2 then some (getNonnegative x.filterFlushPeriod).1
        else none).getD localDefault < 0 then 0
      else (if (getNonnegative x.filterFlushPeriod).2 then some (getNonnegative x.filterFlushPeriod).1
        else none).getD localDefault) = fs.lmdbPeriod x := by
  have hlocal : 0 ≤ localDefault := by
    rw [hd]
    split <;> omega
  simp only [FiltersetXml.lmdbPeriod, ← hd]
  rcases hp : x.filterFlushPeriod with - | p
  · simp [getNonnegative, not_lt.mpr hlocal]
  · by_cases hn : p < 0
    · simp [getNonnegative, hn, not_lt.mpr hlocal]
    · simp [getNonnegative, hn]

theorem loadRule_toFb {x : RuleXml} {m : RuleLmdb} (hm : oneXmlRuleToMemory x = some m) (fs : FiltersetXml)
    {localDefault : Int}
    (hd : localDefault = if fs.filterFlushPeriod.getD (globalDefault fs.filtersetsFlushPeriod) < 0 then 0
      else fs.filterFlushPeriod.getD (globalDefault fs.filtersetsFlushPeriod)) :
    ∃ r, compileXmlRule env fs x = some r ∧
      loadRule env localDefault m.toFb = r.capped (flushInterval (fs.lmdbPeriod x)) .zero := by
  obtain ⟨head, hh, rfl⟩ := Option.map_eq_some_iff.mp hm
  refine ⟨_, by rw [compileXmlRule, hh]; rfl, ?_⟩
  obtain ⟨type, -, htype⟩ := Option.bind_eq_some_iff.mp hh
  simp only [loadRule]
  rw [@loadHead_toFb _ type htype]
  simp only [RuleLmdb.toFb, load_period hd]
  rw [load_infos env x.field (by decide) (fun f _ => rfl), load_tags, ← compileTags_capped]
  simp only [mem_fields, if_true]
  rfl

/-! ### Where the origins agree -/

def FiltersetXml.SamePeriod (fs : FiltersetXml) (x : RuleXml) : Prop :=
  match x.filterFlushPeriod with
  | some p => 0 ≤ p ∨ fs.filterFlushPeriod.getD (globalDefault fs.filtersetsFlushPeriod) ≤ 0
  | none =>
    fs.filterFlushPeriod.isSome ∨
      match fs.groupFlushPeriod with
      | some g => max 0 g = globalDefault fs.filtersetsFlushPeriod
      | none => 0 ≤ fs.filtersetsFlushPeriod.getD 0

def FiltersetXml.NeverFlushed (fs : FiltersetXml) (x : RuleXml) : Prop :=
  (fs.nearestPeriod x).getD defaultFilterFlushPeriodMs ≤ 0

/-- Tables that grow are flushed at the same times, and no table of fixed entries is flushed for a
negative limit. -/
def FiltersetXml.Keeps (fs : FiltersetXml) (x : RuleXml) : Prop :=
  (fs.SamePeriod x ∨ ∀ f, (x.field f).autoAdd.getD 0 ≤ 0) ∧
    (fs.NeverFlushed x ∨ ∀ f, (x.field f).entries = [] ∨ 0 ≤ (x.field f).autoAdd.getD 0)

def xmlVerdicts (fs : FiltersetXml) (events : List FilterEvent) : Option (List (Bool × FilterMetric)) :=
  (compileXml env fs).map fun set => runFilterset env set.rules events

def lmdbVerdicts (fs : FiltersetXml) (events : List FilterEvent) : Option (List (Bool × FilterMetric)) :=
  ((convertXml fs).bind (loadOne env (globalDefault fs.filtersetsFlushPeriod))).map fun set =>
    runFilterset env set.rules events

theorem globalDefault_nonneg (p : Option Int) : 0 ≤ globalDefault p := by
  unfold globalDefault defaultFilterFlushPeriodMs
  dsimp only
  split <;> omega

theorem SamePeriod.eq {fs : FiltersetXml} {x : RuleXml} (h : fs.SamePeriod x) :
    fs.xmlPeriod x = fs.lmdbPeriod x := by
  have hg := globalDefault_nonneg fs.filtersetsFlushPeriod
  unfold FiltersetXml.SamePeriod at h
  unfold FiltersetXml.xmlPeriod FiltersetXml.lmdbPeriod FiltersetXml.nearestPeriod
  rcases hx : x.filterFlushPeriod with - | p
  · rw [hx] at h
    rcases hf : fs.filterFlushPeriod with - | q
    · rw [hf] at h
      rcases hgr : fs.groupFlushPeriod with - | g
      · rw [hgr] at h
        rcases hfs : fs.filtersetsFlushPeriod with - | r
        · simp [getNonnegative, globalDefault]
        · rw [hfs] at h
          have hr : ¬ r < 0 := by simpa using h
          simp [getNonnegative, globalDefault, hr]
      · rw [hgr] at h
        have hm : max 0 g = globalDefault fs.filtersetsFlushPeriod := by simpa using h
        have hl : (if g < 0 then 0 else g) = max 0 g := by split <;> omega
        simp [getNonnegative, hl, hm, not_lt.mpr hg]
    · simp [getNonnegative]
  · rw [hx] at h
    by_cases hn : p < 0
    · have hd : fs.filterFlushPeriod.getD (globalDefault fs.filtersetsFlushPeriod) ≤ 0 := by
        rcases h with h | h
        · omega
        · exact h
      have hl : (if fs.filterFlushPeriod.getD (globalDefault fs.filtersetsFlushPeriod) < 0 then 0
          else fs.filterFlushPeriod.getD (globalDefault fs.filtersetsFlushPeriod)) = 0 := by
        split <;> omega
      simp [getNonnegative, hn, hl]
    · simp [getNonnegative, hn]

theorem NeverFlushed.interval {fs : FiltersetXml} {x : RuleXml} (h : fs.NeverFlushed x) :
    flushInterval (fs.xmlPeriod x) = .zero := by
  have hz : fs.xmlPeriod x = 0 := by
    unfold FiltersetXml.NeverFlushed at h
    unfold FiltersetXml.xmlPeriod
    dsimp only
    split <;> omega
  rw [hz]
  rfl

theorem autoHashMax_htCompile (f : Field) (x : FieldXml) :
    (htCompile env f x).autoHashMax =
      if x.entries ≠ [] ∨ 0 < x.autoAdd.getD 0 then x.autoAdd.getD 0 else 0 := by
  unfold htCompile
  dsimp only
  split
  · rfl
  · rcases x.attr with - | regex
    · rfl
    · rw [Option.elim_some, ruleCompile]
      split <;> rfl

theorem tagsCompile_keeps (r : FilterRule Re Ast) (kind : TagSearchKind) (expr : Bytes) :
    (∀ f, ((r.tagsCompile env kind expr).matcher f).autoHashMax = (r.matcher f).autoHashMax) ∧
      (r.tagsCompile env kind expr).flushInterval = r.flushInterval ∧
      (r.tagsCompile env kind expr).lastFlush = r.lastFlush := by
  unfold FilterRule.tagsCompile
  split
  · exact ⟨fun _ => rfl, rfl, rfl⟩
  · cases env.searchParse expr with
    | some search => cases kind <;> exact ⟨fun _ => rfl, rfl, rfl⟩
    | none =>
      refine ⟨fun f => ?_, rfl, rfl⟩
      dsimp only
      split <;> rfl

theorem compileTags_keeps (r : FilterRule Re Ast) (st mt : Option Bytes) :
    (∀ f, ((r.compileTags env st mt).matcher f).autoHashMax = (r.matcher f).autoHashMax) ∧
      (r.compileTags env st mt).flushInterval = r.flushInterval ∧
      (r.compileTags env st mt).lastFlush = r.lastFlush := by
  have hst : (∀ f, ((st.elim r (r.tagsCompile env .stream ·)).matcher f).autoHashMax =
    (r.matcher f).autoHashMax) ∧
      (st.elim r (r.tagsCompile env .stream ·)).flushInterval = r.flushInterval ∧
      (st.elim r (r.tagsCompile env .stream ·)).lastFlush = r.lastFlush := by
    rcases st with - | st
    · exact ⟨fun _ => rfl, rfl, rfl⟩
    · exact tagsCompile_keeps env r .stream st
  rcases mt with - | mt
  · exact hst
  · obtain ⟨ha, hi, hl⟩ := tagsCompile_keeps env (st.elim r (r.tagsCompile env .stream ·)) .measurement mt
    exact ⟨fun f => (ha f).trans (hst.1 f), hi.trans hst.2.1, hl.trans hst.2.2⟩

theorem compileXmlRule_spec {fs : FiltersetXml} {x : RuleXml} {r : FilterRule Re Ast}
    (h : compileXmlRule env fs x = some r) :
    (∀ f, (r.matcher f).autoHashMax =
        if (x.field f).entries ≠ [] ∨ 0 < (x.field f).autoAdd.getD 0 then (x.field f).autoAdd.getD 0 else 0) ∧
      r.flushInterval = flushInterval (fs.xmlPeriod x) ∧ r.lastFlush = .zero := by
  obtain ⟨head, -, rfl⟩ := Option.map_eq_some_iff.mp h
  obtain ⟨ha, hi, hl⟩ := compileTags_keeps env
    (newRule (bufferText x.id) head (fun f => htCompile env f (x.field f)) (flushInterval (fs.xmlPeriod x)))
    x.streamTags x.measurementTags
  exact ⟨fun f => (ha f).trans (autoHashMax_htCompile env f (x.field f)), hi, hl⟩

theorem Keeps.flushesAs {fs : FiltersetXml} {x : RuleXml} {r : FilterRule Re Ast} (hk : fs.Keeps x)
    (h : compileXmlRule env fs x = some r) : r.FlushesAs (flushInterval (fs.lmdbPeriod x)) .zero := by
  obtain ⟨hauto, hint, hlast⟩ := compileXmlRule_spec env h
  obtain ⟨hp, hn⟩ := hk
  rcases hp with hp | hp
  · refine .inl ⟨by rw [hint, SamePeriod.eq hp], hlast.symm, ?_⟩
    rcases hn with hn | hn
    · left
      rw [← SamePeriod.eq hp]
      exact NeverFlushed.interval hn
    · right
      intro f
      rw [hauto f]
      rcases hn f with he | he
      · split
        · rename_i hc
          exact (hc.resolve_left (not_not.mpr he)).le
        · exact le_rfl
      · split
        · exact he
        · exact le_rfl
  · right
    refine ⟨fun f => ?_, ?_⟩
    · rw [hauto f]
      split
      · exact hp f
      · exact le_rfl
    · rcases hn with hn | hn
      · exact .inl (hint.trans (NeverFlushed.interval hn))
      · right
        intro f
        rw [hauto f]
        rcases hn f with he | he
        · exact if_neg (by simp [he, hp f])
        · split
          · exact le_antisymm (hp f) he
          · rfl

theorem rules_sim (fs : FiltersetXml) {rules : List RuleXml} (hk : ∀ x ∈ rules, x.head.isSome → fs.Keeps x)
    {localDefault : Int}
    (hd : localDefault = if fs.filterFlushPeriod.getD (globalDefault fs.filtersetsFlushPeriod) < 0 then 0
      else fs.filterFlushPeriod.getD (globalDefault fs.filtersetsFlushPeriod)) :
    List.Forall₂ RuleSim (rules.filterMap (compileXmlRule env fs))
      (((rules.filterMap oneXmlRuleToMemory).map RuleLmdb.toFb).map (loadRule env localDefault)) := by
  induction rules with
  | nil => exact .nil
  | cons x xs ih =>
    have ih := ih fun y hy => hk y (List.mem_cons_of_mem _ hy)
    rcases hm : oneXmlRuleToMemory x with - | m
    · have hh : x.head = none := by simpa [oneXmlRuleToMemory] using hm
      have hc : compileXmlRule env fs x = none := by simp [compileXmlRule, hh]
      simpa [hm, hc] using ih
    · have hh : x.head.isSome := by
        obtain ⟨head, hh, -⟩ := Option.map_eq_some_iff.mp hm
        rw [hh]
        rfl
      obtain ⟨r, hr, hl⟩ := loadRule_toFb env hm fs hd
      have hs : RuleSim r (loadRule env localDefault m.toFb) :=
        ⟨_, _, hl, Keeps.flushesAs env (hk x List.mem_cons_self hh) hr⟩
      simpa [hm, hr] using And.intro hs ih

theorem RuleSim.ruleid_eq {x l : FilterRule Re Ast} (h : RuleSim x l) : l.ruleid = x.ruleid := by
  obtain ⟨_, _, rfl, -⟩ := h
  rfl

theorem findIdx_sim {xs ls : List (FilterRule Re Ast)} (h : List.Forall₂ RuleSim xs ls) (s : Bytes) :
    ls.findIdx? (·.ruleid = some s) = xs.findIdx? (·.ruleid = some s) := by
  induction h with
  | nil => rfl
  | cons hr _ ih => simp only [List.findIdx?_cons, hr.ruleid_eq, ih]

theorem resolveSkipto_sim {xs ls : List (FilterRule Re Ast)} (h : List.Forall₂ RuleSim xs ls) (i : Nat) :
    List.Forall₂ RuleSim (resolveSkipto i xs) (resolveSkipto i ls) := by
  induction h generalizing i with
  | nil => exact .nil
  | @cons x l xs ls hr hrest ih =>
    refine .cons ?_ (ih (i + 1))
    simp only [findIdx_sim hrest]
    obtain ⟨interval, last, rfl, hf⟩ := hr
    exact ⟨interval, last, rfl, hf⟩

/-- The filterset loaded from LMDB gives each metric the verdict and the measurement tags
that the filterset compiled from the XML gives it. -/
theorem filterset_backends_agree (fs : FiltersetXml) (hk : ∀ x ∈ fs.rules, x.head.isSome → fs.Keeps x)
    (events : List FilterEvent) : lmdbVerdicts env fs events = xmlVerdicts env fs events := by
  have hsim := resolveSkipto_sim (rules_sim env fs hk rfl) 0
  unfold lmdbVerdicts xmlVerdicts convertXml compileXml loadOne bufferText
  rcases fs.name with - | name
  · rfl
  · simp only [Option.map_some, Option.bind_some]
    split
    · rfl
    · simp only [Option.map_some]
      rw [runFilterset_sim env hsim]

end Backends

def plainFilterEnv : FilterEnv Unit Unit where
  pcreCompile _ := none
  pcreExec _ _ := false
  searchParse _ := none
  evaluateAgainstTags _ _ := false
  parseTags name := some (name.length, [], [])
  encodeTag decoded := (decoded.length, decoded)
  canonicalize name := (name.length, name)

def oneRuleFilterset (metric : FieldXml) (period : Option Int) : FiltersetXml where
  name := some [102]
  seq := none
  filterFlushPeriod := none
  groupFlushPeriod := none
  filtersetsFlushPeriod := none
  rules := [⟨some acceptText, none, period, fun f => if f = .metric then metric
    else ⟨[], none, none⟩, none, none⟩]

def metricAt (name : UInt8) (sec : Nat) : FilterEvent := ⟨⟨[], [], []⟩, ⟨[name], none⟩, ⟨sec, 0⟩⟩

theorem filterset_backends_agree_auto_add :
    lmdbVerdicts plainFilterEnv (oneRuleFilterset ⟨[], some 1, none⟩ none)
      [metricAt 97 1000, metricAt 98 1400] =
      xmlVerdicts plainFilterEnv (oneRuleFilterset ⟨[], some 1, none⟩ none)
        [metricAt 97 1000, metricAt 98 1400] := by
  apply filterset_backends_agree
  intro x hx _
  obtain rfl := List.mem_singleton.mp hx
  refine ⟨.inl (.inr (le_refl (0 : Int))), .inr fun f => ?_⟩
  cases f <;> exact .inl rfl

theorem filterset_backends_differ :
    (xmlVerdicts plainFilterEnv (oneRuleFilterset ⟨[], some 1, none⟩ (some (-1)))
      [metricAt 97 1000, metricAt 98 1400]
        = some [(true, ⟨[97], none⟩), (false, ⟨[98], none⟩)] ∧
      lmdbVerdicts plainFilterEnv (oneRuleFilterset ⟨[], some 1, none⟩ (some (-1)))
        [metricAt 97 1000, metricAt 98 1400]
        = some [(true, ⟨[97], none⟩), (true, ⟨[98], none⟩)]) ∧
    (xmlVerdicts plainFilterEnv (oneRuleFilterset ⟨[[97]], some (-1), none⟩ none)
      [metricAt 98 1000, metricAt 97 1001]
        = some [(false, ⟨[98], none⟩), (false, ⟨[97], none⟩)] ∧
      lmdbVerdicts plainFilterEnv (oneRuleFilterset ⟨[[97]], some (-1), none⟩ none)
        [metricAt 98 1000, metricAt 97 1001]
        = some [(false, ⟨[98], none⟩), (true, ⟨[97], none⟩)]) := by
  decide +kernel

end Reconnoiter
