import Reconnoiter.CanonicalAppend
import Reconnoiter.FiltersetEntries
import Reconnoiter.FiltersetWalk
import Reconnoiter.MeasurementTag

/-! Applying a filterset to a metric a second time. The first application may have given the
metric a longer name, of which the second reads the tags. -/

namespace Reconnoiter

variable {Re Ast : Type}

def decodedPair (cat val : Option Bytes) : Option Bytes :=
  cat.map fun cat => (cat ++ tagSep :: val.getD []).take maxPairLen

/-- A tag that a rule can add: what stands behind `add_measurement_tag:` in the type of the rule,
the text of the tag, and what this text is read as. It is read the same in the canonical name. -/
structure AddableTag (b : Base64) where
  mt : Bytes
  decoded : Bytes
  text : TagText
  meaning : Bytes
  length_lt : (addMeasurementTagText ++ mt).length < maxMetricTaggedName
  head : decodedPair (measurementTagHead mt).tagCat (measurementTagHead mt).tagVal = some decoded
  writes : Writes b decoded text
  read : rereadTag b decoded = some meaning
  reread : rereadTag b meaning = some meaning

structure FilterRule.AddsFrom {b : Base64} (T : List (AddableTag b)) (r : FilterRule Re Ast) : Prop where
  limit : r.Unlimited
  tag : ∀ d, decodedPair r.tagCat r.tagVal = some d → ∃ t ∈ T, t.decoded = d

structure Added {b : Base64} (T : List (AddableTag b)) (present : List Bytes) (xs : List TagText) : Prop where
  mem : ∀ x ∈ xs, ∃ t ∈ T, t.text = x
  nodup : (xs.map TagText.text).Nodup
  fresh : ∀ x ∈ xs, x.text ∉ present
  room : present.length + xs.length ≤ maxTags

structure Twins (present : List Bytes) (name name' : Bytes) (xs : List TagText)
    (st st' : FilterState) : Prop where
  skiptoRule : st'.skiptoRule = st.skiptoRule
  mtset : st'.mtset = st.mtset
  texts : st.mtset.map FilterTag.text = present ++ xs.map TagText.text
  whole : ∀ t ∈ st.mtset, t.totalSize = t.text.length
  expanded : st.expandedMetricName.getD name = name ++ mtBlocks xs
  expanded' : st'.expandedMetricName.getD name' = name' ++ mtBlocks xs
  modified : st.mtModified = !xs.isEmpty
  modified' : st'.mtModified = !xs.isEmpty

section Runs

variable {l : FilterLibs Re} {T : List (AddableTag l.b64)} {present : List Bytes} {name name' : Bytes}
  {xs : List TagText} {st st' : FilterState} {r r' : FilterRule Re (SearchAst TagMatch)} {c : FilterCall}
  {expanded : Option Bytes} {now : TimeVal}

theorem Writes.encodeTag_wide {b : Base64} {d : Bytes} {t : TagText} (h : Writes b d t) :
    encodeTag b (maxPairLen + 1) d = .ok t.text := by
  rw [eq_upTo_append_after h.sep]
  apply (encodeTag_eq_ok_iff (not_mem_upTo tagSep d)).mpr
  exact ⟨le_rfl, h.key_ne, by rw [TagText.text, h.key, h.val], t.length_le.trans (Nat.le_succ _)⟩

theorem any_text_iff {set : List FilterTag} (hwhole : ∀ t ∈ set, t.totalSize = t.text.length) (text : Bytes) :
    (set.any fun t => t.totalSize = text.length ∧ t.text.take text.length = text.take text.length) = true ↔
      text ∈ set.map FilterTag.text := by
  simp only [List.any_eq_true, decide_eq_true_eq, List.mem_map, List.take_length]
  constructor
  · rintro ⟨t, ht, hlen, htake⟩
    rw [hwhole t ht] at hlen
    exact ⟨t, ht, by rwa [← hlen, List.take_length] at htake⟩
  · rintro ⟨t, ht, rfl⟩
    exact ⟨t, ht, hwhole t ht, List.take_length⟩

theorem Added.concat (h : Added T present xs) {t : AddableTag l.b64} (ht : t ∈ T)
    (hnew : t.text.text ∉ present ++ xs.map TagText.text) (hroom : present.length + xs.length < maxTags) :
    Added T present (xs ++ [t.text]) := by
  rw [List.mem_append, not_or] at hnew
  refine ⟨?_, ?_, ?_, ?_⟩
  · intro x hx
    rcases List.mem_append.mp hx with hx | hx
    · exact h.mem x hx
    · exact ⟨t, ht, (List.mem_singleton.mp hx).symm⟩
  · rw [List.map_append, List.map_singleton, ← List.concat_eq_append]
    exact h.nodup.concat hnew.2
  · intro x hx
    rcases List.mem_append.mp hx with hx | hx
    · exact h.fresh x hx
    · rw [List.mem_singleton.mp hx]
      exact hnew.1
  · rw [List.length_append, List.length_singleton]
    omega

theorem Twins.length_mtset (h : Twins present name name' xs st st') :
    st.mtset.length = present.length + xs.length := by
  have hlen := congrArg List.length h.texts
  simpa using hlen

theorem addMeasurementTag_eq {t : AddableTag l.b64} (ht : decodedPair r.tagCat r.tagVal = some t.decoded)
    (hwhole : ∀ u ∈ st.mtset, u.totalSize = u.text.length) (metric : FilterMetric) :
    addMeasurementTag l.env metric r st =
      if maxTags ≤ st.mtset.length ∨ t.text.text ∈ st.mtset.map FilterTag.text then st
      else
        { st with
          expandedMetricName := some (st.expandedMetricName.getD metric.fullName ++ mtBlocks [t.text])
          mtset := st.mtset ++ [⟨t.text.text, t.text.text.length, (r.tagCat.getD []).length - 1⟩]
          mtModified := true } := by
  obtain ⟨cat, hcat, hdecoded⟩ := Option.map_eq_some_iff.mp ht
  have hencode : l.env.encodeTag ((cat ++ tagSep :: r.tagVal.getD []).take maxPairLen) =
      (t.text.text.length, t.text.text) := by
    rw [hdecoded]
    simp only [FilterLibs.env, t.writes.encodeTag_wide]
  unfold Reconnoiter.addMeasurementTag
  simp only [hcat, hencode]
  by_cases hfull : maxTags ≤ st.mtset.length
  · rw [if_pos hfull, if_pos (Or.inl hfull)]
  rw [if_neg hfull]
  by_cases hthere : t.text.text ∈ st.mtset.map FilterTag.text
  · rw [if_pos ((any_text_iff hwhole _).mpr hthere), if_pos (Or.inr hthere)]
  · rw [if_neg (mt (any_text_iff hwhole _).mp hthere), if_neg (not_or.mpr ⟨hfull, hthere⟩)]
    simp [mtBlocks]

theorem Twins.addMeasurementTag (h : Twins present name name' xs st st') (hxs : Added T present xs)
    (hr : r.AddsFrom T) {metric metric' : FilterMetric} (hname : metric.fullName = name)
    (hname' : metric'.fullName = name') :
    ∃ xs', Added T present xs' ∧ Twins present name name' xs' (addMeasurementTag l.env metric r st)
      (addMeasurementTag l.env metric' r st') := by
  cases hcat : r.tagCat with
  | none =>
    unfold Reconnoiter.addMeasurementTag
    rw [hcat]
    exact ⟨xs, hxs, h⟩
  | some cat =>
    obtain ⟨t, ht, hdecoded⟩ := hr.tag _ (by rw [hcat]; rfl)
    have hpair : decodedPair r.tagCat r.tagVal = some t.decoded := by
      rw [hdecoded, hcat]
      rfl
    rw [addMeasurementTag_eq hpair h.whole metric,
      addMeasurementTag_eq hpair (h.mtset ▸ h.whole) metric', h.mtset]
    by_cases hstays : maxTags ≤ st.mtset.length ∨ t.text.text ∈ st.mtset.map FilterTag.text
    · rw [if_pos hstays, if_pos hstays]
      exact ⟨xs, hxs, h⟩
    rw [if_neg hstays, if_neg hstays]
    rw [not_or, h.texts, h.length_mtset] at hstays
    refine ⟨xs ++ [t.text], hxs.concat ht hstays.2 (Nat.lt_of_not_le hstays.1),
      h.skiptoRule, rfl, ?_, ?_, ?_, ?_,
      ?_, ?_⟩
    · simp only [List.map_append, h.texts, List.map_singleton, List.append_assoc]
    · intro u hu
      rcases List.mem_append.mp hu with hu | hu
      · exact h.whole u hu
      · rw [List.mem_singleton.mp hu]
    · rw [hname, h.expanded, Option.getD_some]
      simp [mtBlocks]
    · rw [hname', h.expanded', Option.getD_some]
      simp [mtBlocks]
    · simp
    · simp

def FilterCall.again (c : FilterCall) (expanded : Option Bytes) (now : TimeVal) : FilterCall :=
  { c with metric := ⟨c.metric.metricName, expanded⟩, now }

theorem FilterRule.Alike.matched_again (h : r.Alike r') (mtset : List FilterTag) :
    r'.matched l.env (c.again expanded now) mtset = r.matched l.env c mtset := by
  obtain ⟨last, rfl⟩ := h
  have hneed : ∀ f, FilterRule.need l.env (c.again expanded now) mtset { r with lastFlush := last } f =
      r.need l.env c mtset f := by
    intro f
    cases f <;> rfl
  simp only [FilterRule.matched, hneed]

theorem FilterRule.Alike.addsFrom (h : r.Alike r') (hr : r.AddsFrom T) : r'.AddsFrom T := by
  obtain ⟨last, rfl⟩ := h
  exact ⟨hr.limit, hr.tag⟩

theorem Twins.applyRule (h : Twins present name name' xs st st') (hxs : Added T present xs)
    (hr : r.AddsFrom T) (halike : r.Alike r') (hname : c.metric.fullName = name)
    (hname' : (c.again expanded now).metric.fullName = name') :
    (∃ ret, (applyRule l.env c r st).2 = .stop ret ∧
      (applyRule l.env (c.again expanded now) r' st').2 = .stop ret) ∨
    ∃ xs' next next', (applyRule l.env c r st).2 = .next next ∧
      (applyRule l.env (c.again expanded now) r' st').2 = .next next' ∧ Added T present xs' ∧
      Twins present name name' xs' next next' := by
  obtain ⟨-, hresult⟩ := @applyRule_unlimited _ _ l.env c r st hr.limit
  obtain ⟨-, hresult'⟩ := @applyRule_unlimited _ _ l.env (c.again expanded now) r' st'
    (halike.addsFrom hr).limit
  rw [h.mtset, halike.matched_again] at hresult'
  rw [hresult, hresult']
  cases hm : r.matched l.env c st.mtset with
  | false => exact Or.inr ⟨xs, st, st', rfl, rfl, hxs, h⟩
  | true =>
    obtain ⟨last, rfl⟩ := halike
    simp only [if_true, FilterRule.taken]
    cases r.type with
    | accept => exact Or.inl ⟨true, rfl, rfl⟩
    | deny => exact Or.inl ⟨false, rfl, rfl⟩
    | skipto =>
      exact Or.inr ⟨xs, _, _, rfl, rfl, hxs, rfl, h.mtset, h.texts, h.whole,
        h.expanded, h.expanded', h.modified,
        h.modified'⟩
    | addMeasurementTag =>
      obtain ⟨xs', hxs', htwins⟩ := h.addMeasurementTag hxs hr hname hname'
      exact Or.inr ⟨xs', _, _, rfl, rfl, hxs', htwins⟩

theorem Twins.applyRules {rs rs' : List (FilterRule Re (SearchAst TagMatch))} (hrs : ∀ r ∈ rs, r.AddsFrom T)
    (halike : List.Forall₂ FilterRule.Alike rs rs') (i : Nat) (h : Twins present name name' xs st st')
    (hxs : Added T present xs) (hname : c.metric.fullName = name)
    (hname' : (c.again expanded now).metric.fullName = name') :
    (applyRules l.env (c.again expanded now) i rs' st').2.1 = (applyRules l.env c i rs st).2.1 ∧
      ∃ xs', Added T present xs' ∧ Twins present name name' xs' (applyRules l.env c i rs st).2.2
        (applyRules l.env (c.again expanded now) i rs' st').2.2 := by
  induction halike generalizing i xs st st' with
  | nil => exact ⟨rfl, xs, hxs, h⟩
  | @cons r r' rs rs' hhead _ ih =>
    have htail : ∀ r ∈ rs, r.AddsFrom T := fun r hr => hrs r (List.mem_cons_of_mem _ hr)
    rw [Reconnoiter.applyRules, Reconnoiter.applyRules, h.skiptoRule]
    by_cases hskip : st.skiptoRule.any (· ≠ i) = true
    · rw [if_pos hskip, if_pos hskip]
      exact ih htail (i + 1) h hxs
    rw [if_neg hskip, if_neg hskip]
    have hcleared : Twins present name name' xs { st with skiptoRule := none }
      { st' with skiptoRule := none } :=
      ⟨rfl, h.mtset, h.texts, h.whole, h.expanded, h.expanded', h.modified, h.modified'⟩
    have hstep := hcleared.applyRule hxs (hrs r List.mem_cons_self) hhead hname hname'
    generalize Reconnoiter.applyRule l.env c r _ = result at hstep
    generalize Reconnoiter.applyRule l.env (c.again expanded now) r' _ = result' at hstep
    obtain ⟨r₁, result⟩ := result
    obtain ⟨r₁', result'⟩ := result'
    rcases hstep with ⟨ret, hret, hret'⟩ | ⟨xs', next, next', hnext, hnext', hxs', htwins⟩
    · dsimp only at hret hret'
      subst hret hret'
      exact ⟨rfl, xs, hxs, h⟩
    · dsimp only at hnext hnext'
      subst hnext hnext'
      exact ih htail (i + 1) htwins hxs'

end Runs

def rulesAfter (env : FilterEnv Re Ast) (rules : List (FilterRule Re Ast)) (events : List FilterEvent) :
    List (FilterRule Re Ast) :=
  events.foldl (fun rules e => (applyFilterset env rules e).1) rules

theorem rulesAfter_alike (env : FilterEnv Re Ast) {rules : List (FilterRule Re Ast)}
    (h : ∀ r ∈ rules, r.Unlimited)
    (events : List FilterEvent) : List.Forall₂ FilterRule.Alike rules (rulesAfter env rules events) := by
  induction events generalizing rules with
  | nil => exact forall₂_alike_refl rules
  | cons e events ih =>
    have hnext : List.Forall₂ FilterRule.Alike rules (applyFilterset env rules e).1 := by
      rw [applyFilterset_call]
      exact applyRules_alike h 0 _
    have hlimit : ∀ r r' : FilterRule Re Ast, r.Alike r' → r.Unlimited → r'.Unlimited := by
      rintro r _ ⟨last, rfl⟩ hr
      exact hr
    exact forall₂_alike_trans hnext (ih (forall_of_forall₂ hlimit hnext h))

theorem applyFilterset_result (env : FilterEnv Re Ast) (rules : List (FilterRule Re Ast)) (e : FilterEvent) :
    (applyFilterset env rules e).2 =
      match (applyRules env (e.call env) 0 rules ⟨none, e.mtset env, none, false⟩).2 with
      | (none, _) => (false, e.metric)
      | (some ret, st) =>
        (ret, if st.mtModified then updateMetricName env
          (st.expandedMetricName.getD e.metric.fullName) e.metric
          else e.metric) := by
  unfold applyFilterset FilterEvent.call FilterEvent.mtset
  dsimp only
  split <;> rename_i h <;> rw [h]

section Names

variable {l : FilterLibs Re} {T : List (AddableTag l.b64)} {N name : Bytes} {stags mtags xs : List TagText}

theorem updateMetricName_canonical {text E : Bytes} (h : l.canonical text = .ok E) (expanded : Option Bytes) :
    updateMetricName l.env text ⟨N, expanded⟩ = ⟨N, some E⟩ := by
  have hcanonicalize : l.env.canonicalize text = ((E.length : Int), E) := by
    unfold FilterLibs.canonical at h
    simp only [FilterLibs.env, h]
  have hne : (E.length : Int) ≠ 0 := by
    have hpos := List.length_pos_iff.mpr (canonical_ne_nil h)
    omega
  rw [updateMetricName, hcanonicalize, if_neg hne]

theorem FixedName.call_again (h : FixedName l.b64 l.qsort N name stags mtags)
    (check : FilterCheck) (now now' : TimeVal)
    {expanded : Option Bytes} (hexpanded : N <+: expanded.getD N) :
    (⟨check, ⟨N, expanded⟩, now'⟩ : FilterEvent).call l.env =
        ((⟨check, ⟨N, none⟩, now⟩ : FilterEvent).call l.env).again expanded now' ∧
      (⟨check, ⟨N, expanded⟩, now'⟩ : FilterEvent).mtset l.env = (mtags.map TagText.tag).map filterTag := by
  obtain ⟨rest, hrest⟩ := hexpanded
  have htake : (expanded.getD N).take N.length = N := by rw [← hrest, List.take_left]
  have hparse : l.env.parseTags N =
      some (name.length, (stags.map TagText.tag).map filterTag, (mtags.map TagText.tag).map filterTag) := by
    simp only [FilterLibs.env, h.parse, Option.map_some]
  have hbare : (expanded.getD N).take name.length = N.take name.length := by
    have hlen : name.length ≤ N.length := by
      rw [h.text]
      simp [writtenName]
    rw [← hrest, List.take_append_of_le_length hlen]
  constructor
  · simp only [FilterEvent.call, FilterCall.again, FilterMetric.fullName, htake,
      hparse, Option.getD_some, hbare,
      Option.getD_none, List.take_length]
  · simp only [FilterEvent.mtset, FilterMetric.fullName, htake, hparse, Option.getD_some]

theorem twins_start (N E : Bytes) (mtags : List TagText) :
    Twins (mtags.map TagText.text) N E [] ⟨none, (mtags.map TagText.tag).map filterTag, none, false⟩
      ⟨none, (mtags.map TagText.tag).map filterTag, none, false⟩ := by
  refine ⟨rfl, rfl, ?_, ?_, by simp [mtBlocks], by simp [mtBlocks], rfl, rfl⟩
  · simp only [List.map_map, List.map_nil, List.append_nil]
    rfl
  · intro t ht
    obtain ⟨u, -, rfl⟩ := List.mem_map.mp ht
    rfl

theorem FixedName.added_nil (h : FixedName l.b64 l.qsort N name stags mtags) :
    Added T (mtags.map TagText.text) [] :=
  ⟨by simp, by simp, by simp, by simpa using h.mtags_le⟩

def Settles (l : FilterLibs Re) (N : Bytes) (xs : List TagText) : Prop :=
  ∃ E, l.canonical (N ++ mtBlocks xs) = .ok E ∧ l.canonical (E ++ mtBlocks xs) = .ok E ∧ N <+: E

theorem FixedName.applied_twice (h : FixedName l.b64 l.qsort N name stags mtags)
    (hsettles : ∀ xs, Added T (mtags.map TagText.text) xs → xs ≠ [] → Settles l N xs)
    {rules rules' : List (FilterRule Re (SearchAst TagMatch))} (hrules : ∀ r ∈ rules, r.AddsFrom T)
    (halike : List.Forall₂ FilterRule.Alike rules rules') (check : FilterCheck) (now now' : TimeVal) :
    (applyFilterset l.env rules' ⟨check, (applyFilterset l.env rules ⟨check, ⟨N, none⟩, now⟩).2.2, now'⟩).2 =
      (applyFilterset l.env rules ⟨check, ⟨N, none⟩, now⟩).2 := by
  have hself : N <+: (none : Option Bytes).getD N := List.prefix_rfl
  obtain ⟨-, hmtset⟩ := h.call_again check now now hself
  have hfirst := applyFilterset_result l.env rules ⟨check, ⟨N, none⟩, now⟩
  rw [hmtset] at hfirst
  -- The second run beside the first, for a name that begins with the old one.
  have hsecond : ∀ expanded : Option Bytes, N <+: expanded.getD N →
      ∃ xs st st' ret, Added T (mtags.map TagText.text) xs ∧
        Twins (mtags.map TagText.text) N (expanded.getD N) xs st st' ∧
        (applyRules l.env ((⟨check, ⟨N, none⟩, now⟩ : FilterEvent).call l.env) 0 rules
          ⟨none, (mtags.map TagText.tag).map filterTag, none, false⟩).2 = (ret, st) ∧
        (applyFilterset l.env rules' ⟨check, ⟨N, expanded⟩, now'⟩).2 =
          match (ret, st') with
          | (none, _) => (false, ⟨N, expanded⟩)
          | (some ret, st) => (ret, if st.mtModified then
              updateMetricName l.env (st.expandedMetricName.getD (expanded.getD N)) ⟨N, expanded⟩
            else ⟨N, expanded⟩) := by
    intro expanded hexpanded
    obtain ⟨hcall, hmtset'⟩ := h.call_again check now now' hexpanded
    obtain ⟨hret, xs, hxs, htwins⟩ := @Twins.applyRules _ l T _ _ _ _ _ _
      ((⟨check, ⟨N, none⟩, now⟩ : FilterEvent).call l.env) expanded now' _ _ hrules halike 0
        (twins_start N (expanded.getD N) mtags)
      h.added_nil rfl rfl
    refine ⟨xs, _, _, _, hxs, htwins, rfl, ?_⟩
    rw [applyFilterset_result, hcall, hmtset', ← hret]
    rfl
  obtain ⟨xs, st, st', ret, hxs, htwins, hrun, hagain⟩ := hsecond none hself
  rw [hrun] at hfirst
  cases ret with
  | none =>
    dsimp only at hfirst hagain
    rw [hfirst, hagain]
  | some ret =>
    dsimp only at hfirst hagain
    rw [htwins.modified] at hfirst
    rw [htwins.modified'] at hagain
    cases hnil : xs.isEmpty with
    | true =>
      rw [hnil] at hfirst hagain
      rw [hfirst]
      exact hagain
    | false =>
      obtain ⟨E, hE, hE', hprefix⟩ := hsettles xs hxs (by simpa using hnil)
      have hname : st.expandedMetricName.getD N = N ++ mtBlocks xs := htwins.expanded
      rw [hnil, Bool.not_false, if_pos rfl] at hfirst
      change _ = (ret, updateMetricName l.env (st.expandedMetricName.getD N) ⟨N, none⟩) at hfirst
      rw [hname, updateMetricName_canonical hE] at hfirst
      rw [hfirst]
      obtain ⟨ys, st₂, st₂', ret₂, -, htwins₂, hrun₂, hagain₂⟩ := hsecond (some E) hprefix
      rw [hrun] at hrun₂
      obtain ⟨rfl, rfl⟩ := Prod.mk.inj hrun₂
      -- Both accounts of the first run name the same blocks.
      have hblocks : mtBlocks ys = mtBlocks xs := by
        have hboth := htwins₂.expanded.symm.trans htwins.expanded
        exact List.append_cancel_left hboth
      have hmodified : st₂'.mtModified = true := by
        rw [htwins₂.modified', ← htwins₂.modified, htwins.modified, hnil]
        rfl
      have hname₂ : st₂'.expandedMetricName.getD ((some E).getD N) = E ++ mtBlocks xs := by
        rw [htwins₂.expanded', hblocks]
        rfl
      dsimp only at hagain₂ ⊢
      rw [hagain₂, hmodified, if_pos rfl, hname₂, updateMetricName_canonical hE']

end Names

def FiltersetXml.Held (env : FilterEnv Re Ast) (fs : FiltersetXml)
    (set : Filterset (FilterRule Re Ast)) : Prop :=
  compileXml env fs = some set ∨
    (convertXml fs).bind (loadOne env (globalDefault fs.filtersetsFlushPeriod)) = some set

structure FiltersetXml.AddsFrom {b : Base64} (T : List (AddableTag b)) (fs : FiltersetXml) : Prop where
  autoAdd : ∀ x ∈ fs.rules, ∀ f, (x.field f).autoAdd = none
  tags : ∀ x ∈ fs.rules, ∀ mt, bufferText x.type = some (addMeasurementTagText ++ mt) →
    (measurementTagHead mt).tagCat = none ∨ ∃ t ∈ T, t.mt = mt

/-- At any time after the filterset was loaded, an application to the metric and a later one to the same
metric give one verdict and one name. -/
def FiltersetXml.StableOn (l : FilterLibs Re) (N : Bytes) (fs : FiltersetXml) : Prop :=
  ∀ set, fs.Held l.env set → ∀ (past between : List FilterEvent) (check : FilterCheck) (now now' : TimeVal),
    let first := applyFilterset l.env (rulesAfter l.env set.rules past) ⟨check, ⟨N, none⟩, now⟩
    (applyFilterset l.env (rulesAfter l.env first.1 between) ⟨check, first.2.2, now'⟩).2 = first.2

def RoomFor (l : FilterLibs Re) (N : Bytes) (T : List (AddableTag l.b64)) : Prop :=
  ∀ xs, Added T (taggedName N).measurement xs →
    ∃ E E', l.canonical (N ++ mtBlocks xs) = .ok E ∧ l.canonical (E ++ mtBlocks xs) = .ok E'

section Held

variable {b : Base64} {T : List (AddableTag b)} {env : FilterEnv Re Ast} {fs : FiltersetXml} {x : RuleXml}
  {r : FilterRule Re Ast}

theorem ruleHead_tag {type cat : Bytes} {head : RuleHead} (h : ruleHead type = some head)
    (hcat : head.tagCat = some cat) : ∃ mt, type = addMeasurementTagText ++ mt ∧
      head = measurementTagHead mt := by
  unfold ruleHead at h
  split_ifs at h with hknown hskip hadd haccept
  · rw [← Option.some.inj h] at hcat
    exact absurd hcat (by simp)
  · obtain ⟨mt, rfl⟩ := List.isPrefixOf_iff_prefix.mp hadd
    refine ⟨mt, rfl, ?_⟩
    rw [← Option.some.inj h, List.drop_left]
  · rw [← Option.some.inj h] at hcat
    exact absurd hcat (by simp)
  · rw [← Option.some.inj h] at hcat
    exact absurd hcat (by simp)

theorem FiltersetXml.AddsFrom.compiled (h : fs.AddsFrom T) (hx : x ∈ fs.rules)
    (hr : compileXmlRule env fs x = some r) : r.AddsFrom T := by
  refine ⟨compileXmlRule_unlimited hr (h.autoAdd x hx), fun d hd => ?_⟩
  obtain ⟨head, hhead, -, -, hcat, hval, -⟩ := compileXmlRule_head hr
  obtain ⟨cat, hsome, -⟩ := Option.map_eq_some_iff.mp hd
  obtain ⟨type, htype, hrule⟩ := Option.bind_eq_some_iff.mp hhead
  obtain ⟨mt, rfl, rfl⟩ := ruleHead_tag hrule (hcat ▸ hsome)
  rw [hcat, hval] at hd
  rcases h.tags x hx mt htype with hnone | ⟨t, ht, rfl⟩
  · rw [hcat, hnone] at hsome
    exact absurd hsome (by simp)
  · rw [t.head, Option.some.injEq] at hd
    exact ⟨t, ht, hd⟩

theorem RuleSim.addsFrom {r' : FilterRule Re Ast} (h : RuleSim r r') (hr : r.AddsFrom T) : r'.AddsFrom T := by
  obtain ⟨interval, last, rfl, -⟩ := h
  refine ⟨fun f => ?_, hr.tag⟩
  have hzero := hr.limit f
  simp [FilterRule.capped, Matcher.capped, hzero]

theorem FiltersetXml.AddsFrom.held (h : fs.AddsFrom T) {set : Filterset (FilterRule Re Ast)}
    (hset : fs.Held env set) : ∀ r ∈ set.rules, r.AddsFrom T := by
  have hskipto : ∀ (r : FilterRule Re Ast) next, r.AddsFrom T →
    FilterRule.AddsFrom T { r with skiptoRule := next } :=
    fun r next hr => ⟨hr.limit, hr.tag⟩
  have hcompiled : ∀ r ∈ fs.rules.filterMap (compileXmlRule env fs), r.AddsFrom T := by
    intro r hr
    obtain ⟨x, hx, hcompile⟩ := List.mem_filterMap.mp hr
    exact h.compiled hx hcompile
  rcases hset with hset | hset
  · rw [compileXml_rules hset]
    exact forall_resolved hskipto hcompiled 0
  · obtain ⟨fb, hfb, hload⟩ := Option.bind_eq_some_iff.mp hset
    obtain ⟨name, -, rfl⟩ := Option.map_eq_some_iff.mp hfb
    have hkeeps : ∀ x ∈ fs.rules, x.head.isSome → fs.Keeps x := by
      intro x hx _
      have hauto := h.autoAdd x hx
      exact ⟨Or.inr fun f => by simp [hauto f], Or.inr fun f => Or.inr (by simp [hauto f])⟩
    have hsim := rules_sim env fs hkeeps rfl
    unfold loadOne at hload
    dsimp only at hload
    by_cases hseq : fs.seq.getD 0 < 0
    · rw [if_pos hseq] at hload
      exact absurd hload (by simp)
    · rw [if_neg hseq] at hload
      rw [← Option.some.inj hload]
      exact forall_resolved hskipto (forall_of_forall₂ (fun _ _ hs hr => hs.addsFrom hr) hsim hcompiled) 0

end Held

section Twice

variable {l : FilterLibs Re} {T : List (AddableTag l.b64)} {N name : Bytes} {stags mtags : List TagText}

theorem FixedName.taggedName_eq (h : FixedName l.b64 l.qsort N name stags mtags) :
    taggedName N = ⟨name, stags.map TagText.text, mtags.map TagText.text⟩ := by
  rw [h.text]
  exact taggedName_writtenName h.canonical.name stags mtags

theorem AddableTag.decodedTag_text (t : AddableTag l.b64) : decodedTag l.b64 t.text.text = some t.meaning :=
  (t.writes.decodeTag_eq (by omega)).trans t.read

theorem Added.decoded {present : List Bytes} {xs : List TagText} (h : Added T present xs) {d : Bytes}
    (hd : d ∈ decodedTags l.b64 (xs.map TagText.text)) : ∃ t ∈ T, t.meaning = d := by
  obtain ⟨text, htext, hdecoded⟩ := List.mem_filterMap.mp hd
  obtain ⟨x, hx, rfl⟩ := List.mem_map.mp htext
  obtain ⟨t, ht, rfl⟩ := h.mem x hx
  rw [t.decodedTag_text, Option.some.injEq] at hdecoded
  exact ⟨t, ht, hdecoded⟩

theorem FixedName.settles (h : FixedName l.b64 l.qsort N name stags mtags) (hroom : RoomFor l N T)
    (hcond : mtags = [] ∨ ∀ t ∈ T, t.meaning ∈ decodedTags l.b64 (mtags.map TagText.text)) {xs : List TagText}
    (hxs : Added T (mtags.map TagText.text) xs) : Settles l N xs := by
  obtain ⟨E, E', hE, hE'⟩ := hroom xs (by rw [h.taggedName_eq]; exact hxs)
  have hlen := hxs.room
  rw [List.length_map] at hlen
  rcases hcond with rfl | hlisted
  · have hread : ∀ d ∈ decodedTags l.b64 (xs.map TagText.text), rereadTag l.b64 d = some d := by
      intro d hd
      obtain ⟨t, -, rfl⟩ := hxs.decoded hd
      exact t.reread
    obtain ⟨rfl, hprefix⟩ := h.append_again (by omega) hread hE hE'
    exact ⟨E', hE, hE', hprefix⟩
  · have hsubset : ∀ d ∈ decodedTags l.b64 (xs.map TagText.text),
      d ∈ decodedTags l.b64 (mtags.map TagText.text) := by
      intro d hd
      obtain ⟨t, ht, rfl⟩ := hxs.decoded hd
      exact hlisted t ht
    obtain rfl := h.append_listed (by omega) hsubset hE
    exact ⟨E, hE, hE, List.prefix_rfl⟩

theorem FixedName.bare_canonical (h : FixedName l.b64 l.qsort N name stags mtags)
    (hN : l.canonical N = .ok N) :
    l.canonical name = .ok name := by
  have hname : ¬ HasMarker name := h.canonical.name
  have hlen := h.length_lt
  have hcommas := (canonicalOf_of_canonicalize hN).1
  rw [h.text, count_writtenName] at hcommas
  have hshort : name.length ≤ N.length := by
    rw [h.text]
    simp [writtenName]
  have hnil : sortDedup l.qsort (decodeTags l.b64 []) = [] := (sortDedup_eq_nil_iff l.qsort).mpr rfl
  have hwritten : writtenName (cleanName name) [] [] = name := by simp [writtenName, blockText, h.clean]
  have heat : eatName l.b64 l.sha1Hex name = .ok ⟨name, [], [], some 0⟩ := eatTags_name hname _
  have hcan : CanonicalOf l.b64 l.qsort ⟨name, [], [], some 0⟩ [] [] := by
    refine ⟨hname, h.canonical.clean, ?_, ?_, ?_⟩
    · rw [hnil]
      exact List.Forall₂.nil
    · rw [hnil]
      exact List.Forall₂.nil
    · rw [hwritten]
      omega
  have hresult := canonicalize_of_canonicalOf (hshort.trans hlen.le) (by omega) heat hcan
    (by rw [hwritten]; exact hshort.trans hlen.le)
  rw [hwritten] at hresult
  exact hresult

def taggingFilterset (mt name : Bytes) : FiltersetXml where
  name := some []
  seq := none
  filterFlushPeriod := none
  groupFlushPeriod := none
  filtersetsFlushPeriod := none
  rules := [bareRule (addMeasurementTagText ++ mt) none, metricRule [.bare name]]

theorem ruleHead_add (mt : Bytes) :
    ruleHead (addMeasurementTagText ++ mt) = some (measurementTagHead mt) := by
  simp [ruleHead, knownType, addMeasurementTagText, skiptoText]

theorem measurementTagHead_type (mt : Bytes) : (measurementTagHead mt).type = .addMeasurementTag := by
  unfold measurementTagHead
  split_ifs <;> rfl

theorem taggingFilterset_addsFrom {t : AddableTag l.b64} (ht : t ∈ T) (name : Bytes) :
    (taggingFilterset t.mt name).AddsFrom T := by
  have hcut : bufferText (some (addMeasurementTagText ++ t.mt)) = some (addMeasurementTagText ++ t.mt) := by
    have hlen := t.length_lt
    rw [bufferText, Option.map_some, cutAttr, List.take_of_length_le (by omega)]
  constructor
  · intro x hx f
    simp only [taggingFilterset, List.mem_cons, List.not_mem_nil, or_false] at hx
    rcases hx with rfl | rfl
    · rfl
    · cases f <;> rfl
  · intro x hx mt hmt
    simp only [taggingFilterset, List.mem_cons, List.not_mem_nil, or_false] at hx
    rcases hx with rfl | rfl
    · rw [bareRule, hcut, Option.some.injEq, List.append_cancel_left_eq] at hmt
      exact Or.inr ⟨t, ht, hmt⟩
    · have haccept : some acceptText = some (addMeasurementTagText ++ mt) := hmt
      rw [Option.some.injEq] at haccept
      exact absurd (congrArg (·[1]?) haccept) (by simp [acceptText, addMeasurementTagText])

theorem applyRules_tagging {env : FilterEnv Re Ast} {r₁ r₂ : FilterRule Re Ast}
    (h₁ : r₁.Unlimited) (h₂ : r₂.Unlimited)
    (ht₁ : r₁.type = .addMeasurementTag) (ht₂ : r₂.type = .accept) {c : FilterCall} {mtset : List FilterTag}
    (hm : r₁.matched env c mtset = true) :
    (applyRules env c 0 [r₁, r₂] ⟨none, mtset, none, false⟩).2 =
      (if r₂.matched env c (addMeasurementTag env c.metric r₁ ⟨none, mtset, none, false⟩).mtset then
        some true else none,
        addMeasurementTag env c.metric r₁ ⟨none, mtset, none, false⟩) := by
  have hskip := addMeasurementTag_skipto env c.metric r₁ ⟨none, mtset, none, false⟩
  obtain ⟨-, hfirst⟩ := @applyRule_unlimited _ _ env c r₁ ⟨none, mtset, none, false⟩ h₁
  rw [hm, if_pos rfl, FilterRule.taken, ht₁] at hfirst
  dsimp only at hfirst
  generalize addMeasurementTag env c.metric r₁ ⟨none, mtset, none, false⟩ = st at hskip hfirst ⊢
  obtain ⟨next, set, expanded, modified⟩ := st
  dsimp only at hskip
  subst hskip
  obtain ⟨-, hsecond⟩ := @applyRule_unlimited _ _ env c r₂ ⟨none, set, expanded, modified⟩ h₂
  rw [FilterRule.taken, ht₂] at hsecond
  rw [applyRules, if_neg (by simp)]
  generalize applyRule env c r₁ _ = result at hfirst
  obtain ⟨r₁', result⟩ := result
  dsimp only at hfirst
  subst hfirst
  dsimp only
  rw [applyRules, if_neg (by simp)]
  generalize applyRule env c r₂ _ = result at hsecond
  obtain ⟨r₂', result⟩ := result
  dsimp only at hsecond
  subst hsecond
  cases r₂.matched env c set <;> rfl

theorem metricRule_matched {fs : FiltersetXml} {r : FilterRule Re (SearchAst TagMatch)} {name : Bytes}
    (hname : l.canonical name = .ok name) (hr : compileXmlRule l.env fs (metricRule [.bare name]) = some r)
    (c : FilterCall) (mtset : List FilterTag) :
    r.matched l.env c mtset =
      decide (c.metric.metricName.take c.mlen = name ∨ lookedUp c.metric.metricName c.mlen = name) := by
  have hhead : (metricRule [.bare name]).head = some ⟨.accept, none, none, none⟩ := by rfl
  have hkey : htKey l.env .metric name = name := htKey_canonical hname
  rw [compileXmlRule, hhead, Option.map_some, Option.some.injEq] at hr
  have hmetric : r.need l.env c mtset .metric =
      !decide (c.metric.metricName.take c.mlen = name ∨ lookedUp c.metric.metricName c.mlen = name) := by
    have hht : (r.matcher .metric).ht = some {name} := by
      rw [← hr]
      simp [FilterRule.compileTags, metricRule, newRule, htCompile, MetricEntry.text, hkey]
    simp only [FilterRule.need, FilterRule.applyFilterruleMetric, hht, Finset.mem_singleton, Bool.decide_or]
  have hothers : ∀ f, f ≠ .metric → r.need l.env c mtset f = false := by
    intro f hf
    rw [← hr]
    cases f with
    | metric => exact absurd rfl hf
    | target => rfl
    | module => rfl
    | name => rfl
  rw [FilterRule.matched]
  congr 1
  apply propext
  constructor
  · intro hall
    have hneed := hall .metric
    rwa [hmetric, Bool.not_eq_false', decide_eq_true_iff] at hneed
  · intro hfound f
    by_cases hf : f = .metric
    · rw [hf, hmetric, decide_eq_true hfound]
      rfl
    · exact hothers f hf

structure FilterRule.TagsAll (l : FilterLibs Re) (t : AddableTag l.b64)
    (r : FilterRule Re (SearchAst TagMatch)) :
    Prop where
  limit : r.Unlimited
  type : r.type = .addMeasurementTag
  tag : decodedPair r.tagCat r.tagVal = some t.decoded
  matched : ∀ c mtset, r.matched l.env c mtset = true

structure FilterRule.AcceptsNamed (l : FilterLibs Re) (name : Bytes)
    (r : FilterRule Re (SearchAst TagMatch)) :
    Prop where
  limit : r.Unlimited
  type : r.type = .accept
  matched : ∀ c mtset, r.matched l.env c mtset =
    decide (c.metric.metricName.take c.mlen = name ∨ lookedUp c.metric.metricName c.mlen = name)

theorem FilterRule.TagsAll.alike {t : AddableTag l.b64} {r r' : FilterRule Re (SearchAst TagMatch)}
    (h : r.TagsAll l t) (halike : r.Alike r') : r'.TagsAll l t := by
  obtain ⟨last, rfl⟩ := halike
  exact ⟨h.limit, h.type, h.tag, h.matched⟩

theorem FilterRule.AcceptsNamed.alike {r r' : FilterRule Re (SearchAst TagMatch)} (h : r.AcceptsNamed l name)
    (halike : r.Alike r') : r'.AcceptsNamed l name := by
  obtain ⟨last, rfl⟩ := halike
  exact ⟨h.limit, h.type, h.matched⟩

theorem taggingFilterset_rules (t : AddableTag l.b64) (hname : l.canonical name = .ok name) :
    ∃ set r₁ r₂, compileXml l.env (taggingFilterset t.mt name) = some set ∧
      set.rules = [r₁, r₂] ∧ r₁.TagsAll l t ∧
      r₂.AcceptsNamed l name := by
  have hcut : cutAttr (addMeasurementTagText ++ t.mt) = addMeasurementTagText ++ t.mt := by
    have hlen := t.length_lt
    rw [cutAttr, List.take_of_length_le (by omega)]
  have hhead : (bareRule (addMeasurementTagText ++ t.mt) none).head = some (measurementTagHead t.mt) := by
    have hread : (bareRule (addMeasurementTagText ++ t.mt) none).head =
        ruleHead (cutAttr (addMeasurementTagText ++ t.mt)) := rfl
    rw [hread, hcut, ruleHead_add]
  obtain ⟨r₁, h₁⟩ : ∃ r, compileXmlRule l.env (taggingFilterset t.mt name)
      (bareRule (addMeasurementTagText ++ t.mt) none) = some r := by simp [compileXmlRule, hhead]
  obtain ⟨r₂, h₂⟩ : ∃ r, compileXmlRule l.env (taggingFilterset t.mt name)
    (metricRule [.bare name]) = some r := by
    exact ⟨_, rfl⟩
  have hrules : (taggingFilterset t.mt name).rules.filterMap
    (compileXmlRule l.env (taggingFilterset t.mt name)) =
      [r₁, r₂] := by
    have hlist : (taggingFilterset t.mt name).rules =
        [bareRule (addMeasurementTagText ++ t.mt) none, metricRule [.bare name]] := rfl
    rw [hlist, List.filterMap_cons_some h₁, List.filterMap_cons_some h₂]
    rfl
  refine ⟨⟨[], 0, resolveSkipto 0 [r₁, r₂]⟩, _, _, ?_, rfl, ?_, ?_⟩
  · rw [← hrules]
    rfl
  · obtain ⟨head, hhead', htype, -, hcat, hval, -⟩ := compileXmlRule_head h₁
    rw [hhead, Option.some.injEq] at hhead'
    subst hhead'
    have hlimit : r₁.Unlimited := compileXmlRule_unlimited h₁ fun f => rfl
    refine ⟨hlimit, htype.trans (measurementTagHead_type t.mt), ?_, fun c mtset => ?_⟩
    · dsimp only
      rw [hcat, hval]
      exact t.head
    · have hsome : (ruleHead (cutAttr (addMeasurementTagText ++ t.mt))).isSome := by
        rw [hcut, ruleHead_add]
        rfl
      have hall := @bareRule_matched _ _ l.env (taggingFilterset t.mt name) _ none hsome c mtset
      rw [h₁, Option.any_some] at hall
      exact hall
  · obtain ⟨head, hhead', htype, -⟩ := compileXmlRule_head h₂
    have haccept : (metricRule [.bare name]).head = some ⟨.accept, none, none, none⟩ := by rfl
    rw [haccept, Option.some.injEq] at hhead'
    subst hhead'
    have hauto : ∀ f, ((metricRule [.bare name]).field f).autoAdd = none := by
      intro f
      cases f <;> rfl
    have hlimit : r₂.Unlimited := compileXmlRule_unlimited h₂ hauto
    have hmatched := metricRule_matched hname h₂
    exact ⟨hlimit, htype, hmatched⟩

theorem applyFilterset_tagging {t : AddableTag l.b64} {r₁ r₂ : FilterRule Re (SearchAst TagMatch)}
    (h₁ : r₁.TagsAll l t) (h₂ : r₂.AcceptsNamed l name) (e : FilterEvent) :
    (applyFilterset l.env [r₁, r₂] e).2 =
      if e.metric.metricName.take (e.call l.env).mlen = name ∨
        lookedUp e.metric.metricName (e.call l.env).mlen = name then
        let st := addMeasurementTag l.env e.metric r₁ ⟨none, e.mtset l.env, none, false⟩
        (true, if st.mtModified then updateMetricName l.env
          (st.expandedMetricName.getD e.metric.fullName) e.metric
          else e.metric)
      else (false, e.metric) := by
  have hmetric : (e.call l.env).metric = e.metric := rfl
  have hmatched := h₂.matched (e.call l.env)
  rw [applyFilterset_result, applyRules_tagging h₁.limit h₂.limit h₁.type h₂.type (h₁.matched _ _),
    hmatched, hmetric]
  by_cases hfound : e.metric.metricName.take (e.call l.env).mlen = name ∨
      lookedUp e.metric.metricName (e.call l.env).mlen = name
  · rw [decide_eq_true hfound, if_pos hfound, if_pos rfl]
  · rw [decide_eq_false hfound, if_neg hfound, if_neg Bool.false_ne_true]

theorem FixedName.not_stable (h : FixedName l.b64 l.qsort N name stags mtags) (hN : l.canonical N = .ok N)
    (hroom : RoomFor l N T) (hne : mtags ≠ []) (hlen : mtags.length < maxTags)
    {t : AddableTag l.b64} (ht : t ∈ T)
    (hnew : t.meaning ∉ decodedTags l.b64 (mtags.map TagText.text)) :
    ¬ (taggingFilterset t.mt name).StableOn l N := by
  intro hstable
  have hfresh : t.text.text ∉ mtags.map TagText.text :=
    fun hmem => hnew (List.mem_filterMap.mpr ⟨_, hmem, t.decodedTag_text⟩)
  obtain ⟨E, -, hE, -⟩ := hroom [t.text] (by
    rw [h.taggedName_eq]
    refine ⟨by simpa using ⟨t, ht, rfl⟩, by simp, by simpa using hfresh, by simpa using hlen⟩)
  obtain ⟨hlonger, hcut⟩ := h.append_new hne hlen t.decodedTag_text hnew hE
  have hshorter : name.length < N.length := by
    have hblock : (blockText mtOpen mtClose mtags).length ≠ 0 := by simp [blockText_of_ne_nil hne, mtOpen]
    rw [h.text]
    simp only [writtenName, List.length_append]
    omega
  obtain ⟨set, r₁, r₂, hset, hrules, h₁, h₂⟩ := taggingFilterset_rules t (h.bare_canonical hN)
  have hsecond := hstable set (Or.inl hset) [] [] ⟨[], [], []⟩ .zero .zero
  have hself : N <+: (none : Option Bytes).getD N := List.prefix_rfl
  obtain ⟨-, hmtset⟩ := h.call_again ⟨[], [], []⟩ .zero .zero hself
  -- The first application accepts the metric and lengthens its name.
  have hfirst : (applyFilterset l.env [r₁, r₂] ⟨⟨[], [], []⟩, ⟨N, none⟩, .zero⟩).2 = (true, ⟨N, some E⟩) := by
    have hfound : N.take ((⟨⟨[], [], []⟩, ⟨N, none⟩, .zero⟩ : FilterEvent).call l.env).mlen = name := by
      rw [call_mlen h rfl, h.take_name]
    have hstart := twins_start N N mtags
    have hadds : ¬ (maxTags ≤ ((mtags.map TagText.tag).map filterTag).length ∨
        t.text.text ∈ ((mtags.map TagText.tag).map filterTag).map FilterTag.text) := by
      rw [hstart.texts, not_or]
      exact ⟨by simpa using hlen, by simpa using hfresh⟩
    rw [applyFilterset_tagging h₁ h₂, if_pos (Or.inl hfound), hmtset,
      addMeasurementTag_eq h₁.tag hstart.whole,
      if_neg hadds]
    exact congrArg (Prod.mk true) (updateMetricName_canonical hE none)
  have halike : List.Forall₂ FilterRule.Alike [r₁, r₂]
      (applyFilterset l.env [r₁, r₂] ⟨⟨[], [], []⟩, ⟨N, none⟩, .zero⟩).1 := by
    have hlimits : ∀ r ∈ [r₁, r₂], r.Unlimited := by simpa using ⟨h₁.limit, h₂.limit⟩
    exact rulesAfter_alike l.env hlimits [⟨⟨[], [], []⟩, ⟨N, none⟩, .zero⟩]
  simp only [rulesAfter, List.foldl_nil, hrules, hfirst] at hsecond
  generalize (applyFilterset l.env [r₁, r₂] _).1 = later at hsecond halike
  cases halike with
  | @cons _ a _ _ ha htail =>
  cases htail with
  | @cons _ b _ _ hb hend =>
  cases hend
  -- The second finds no tags, and takes the metric for one without them.
  have hmlen : ((⟨⟨[], [], []⟩, ⟨N, some E⟩, .zero⟩ : FilterEvent).call l.env).mlen = E.length := by
    have hparse : l.env.parseTags (E.take N.length) = none := by
      simp only [FilterLibs.env, hcut, Option.map_none]
    simp only [FilterEvent.call, FilterMetric.fullName, Option.getD_some, hparse, Option.getD_none]
  have hmissed : ¬ (N.take E.length = name ∨ lookedUp N E.length = name) := by
    have hend : N.getD E.length 0 = 0 := by simp [hlonger.le]
    have hfits := h.length_lt
    rw [List.take_of_length_le hlonger.le, lookedUp, if_pos hend]
    rintro (hsame | hsame)
    · exact absurd (congrArg List.length hsame) (by omega)
    · have hsize := congrArg List.length hsame
      rw [withEmptyTags, List.length_take, List.length_append] at hsize
      omega
  rw [applyFilterset_tagging (h₁.alike ha) (h₂.alike hb), hmlen, if_neg hmissed] at hsecond
  exact absurd (congrArg Prod.fst hsecond) (by simp)

end Twice

/-- Filtersets without auto_add that add no tags but the given ones give a canonical metric the
same verdict and the same name a second time if and only if the metric has no measurement tags, no
room for more, or every one of these tags. -/
theorem filterset_twice_iff (l : FilterLibs Re) {N : Bytes} (hN : l.canonical N = .ok N)
    (T : List (AddableTag l.b64)) (hroom : RoomFor l N T) :
    (∀ fs : FiltersetXml, fs.AddsFrom T → fs.StableOn l N) ↔
      (taggedName N).measurement = [] ∨ maxTags ≤ (taggedName N).measurement.length ∨
        ∀ t ∈ T, t.meaning ∈ decodedTags l.b64 (taggedName N).measurement := by
  obtain ⟨name, stags, mtags, h⟩ := exists_fixedName hN
  simp only [h.taggedName_eq, List.map_eq_nil_iff, List.length_map]
  constructor
  · intro hstable
    by_contra hcond
    push Not at hcond
    obtain ⟨hne, hlen, t, ht, hnew⟩ := hcond
    exact h.not_stable hN hroom hne hlen ht hnew (hstable _ (taggingFilterset_addsFrom ht name))
  · intro hcond fs hfs set hset past between check now now'
    have hrules := hfs.held hset
    have hpast := rulesAfter_alike l.env (fun r hr => (hrules r hr).limit) past
    have hadds := forall_of_forall₂ (fun _ _ halike hr => halike.addsFrom hr) hpast hrules
    have hlimits : ∀ r ∈ rulesAfter l.env set.rules past, r.Unlimited := fun r hr => (hadds r hr).limit
    have hagain := rulesAfter_alike l.env hlimits (⟨check, ⟨N, none⟩, now⟩ :: between)
    refine h.applied_twice (fun xs hxs hne => ?_) hadds hagain check now now'
    rcases hcond with hnil | hfull | hlisted
    · exact h.settles hroom (Or.inl hnil) hxs
    · have hcount := hxs.room
      rw [List.length_map] at hcount
      exact absurd (List.length_eq_zero_iff.mp (by omega)) hne
    · exact h.settles hroom (Or.inr hlisted) hxs

def epTag : AddableTag plainLibs.b64 where
  mt := [101, 58, 112]
  decoded := [101, 31, 112]
  text := ⟨[101], [112], by decide, by decide +kernel, by decide⟩
  meaning := [101, 31, 112]
  length_lt := by decide
  head := by decide
  writes := ⟨by decide, by decide, by rfl, by rfl⟩
  read := by decide
  reread := by decide

theorem filterset_twice_ep : plainLibs.canonical [102] = .ok [102] ∧
    ∀ fs : FiltersetXml, fs.AddsFrom [epTag] → fs.StableOn plainLibs [102] := by
  have hroom : RoomFor plainLibs [102] [epTag] := by
    intro xs hxs
    have hall : ∀ x ∈ xs, x = epTag.text := by
      intro x hx
      obtain ⟨t, ht, rfl⟩ := hxs.mem x hx
      rw [List.mem_singleton.mp ht]
    have hnodup := hxs.nodup
    rcases xs with _ | ⟨x, _ | ⟨y, xs⟩⟩
    · exact ⟨_, _, by rfl, by rfl⟩
    · obtain rfl := hall x List.mem_cons_self
      exact ⟨[102, 124, 77, 84, 123, 101, 58, 112, 125], _, by rfl, by rfl⟩
    · rw [hall x (by simp), hall y (by simp)] at hnodup
      simp at hnodup
  exact ⟨by rfl, (filterset_twice_iff plainLibs (N := [102]) (by rfl) [epTag] hroom).mpr (Or.inl (by decide))⟩

theorem second_application_denies :
    plainLibs.canonical [102, 124, 77, 84, 123, 109, 58, 110, 125] =
      .ok [102, 124, 77, 84, 123, 109, 58, 110, 125] ∧
    ∃ set, compileXml plainLibs.env (taggingFilterset [101, 58, 112] [102]) = some set ∧
      (applyFilterset plainLibs.env set.rules
        ⟨⟨[], [], []⟩, ⟨[102, 124, 77, 84, 123, 109, 58, 110, 125], none⟩,
        .zero⟩).2 = (true, ⟨[102, 124, 77, 84, 123, 109, 58, 110, 125],
          some [102, 124, 77, 84, 123, 101, 58, 112, 44, 109, 58, 110, 125]⟩) ∧
      (applyFilterset plainLibs.env (applyFilterset plainLibs.env set.rules ⟨⟨[], [], []⟩,
          ⟨[102, 124, 77, 84, 123, 109, 58, 110, 125], none⟩, .zero⟩).1
        ⟨⟨[], [], []⟩, ⟨[102, 124, 77, 84, 123, 109, 58, 110, 125],
          some [102, 124, 77, 84, 123, 101, 58, 112, 44, 109, 58, 110, 125]⟩, .zero⟩).2.1 = false := by
  refine ⟨by rfl, _, rfl, by decide +kernel, by decide +kernel⟩

end Reconnoiter
