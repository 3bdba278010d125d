import Reconnoiter.CanonicalFixed
import Reconnoiter.FiltersetAutoAdd

/-! The metrics that the explicit metric entries of a rule select. -/

namespace Reconnoiter

variable {Re : Type}

def FilterLibs.canonical (l : FilterLibs Re) (input : Bytes) : Except Fault Bytes :=
  canonicalize l.b64 l.qsort l.sha1Hex maxMetricTaggedName input

/-- A metric is listed as `name|ST[]`, by its bare name or with its tags. -/
inductive MetricEntry where
  | untagged (name : Bytes)
  | bare (name : Bytes)
  | tagged (text : Bytes)
deriving DecidableEq

def MetricEntry.text : MetricEntry → Bytes
  | untagged name => name ++ emptyStreamTags
  | bare name => name
  | tagged text => text

structure BaseName (l : FilterLibs Re) (name : Bytes) : Prop where
  canonical : l.canonical name = .ok name
  unmarked : ¬ HasMarker name

def MetricEntry.Valid (l : FilterLibs Re) : MetricEntry → Prop
  | untagged name => BaseName l name
  | bare name => BaseName l name
  | tagged text => ∃ N, l.canonical text = .ok N ∧ HasMarker N

def MetricEntry.Selects (l : FilterLibs Re) (N : Bytes) : MetricEntry → Prop
  | untagged name => N = name
  | bare name => ∃ stags mtags, N = writtenName name stags mtags
  | tagged text => l.canonical text = .ok N

def MetricEntry.IsUntagged : MetricEntry → Prop
  | untagged _ => True
  | _ => False

section Keys

variable {l : FilterLibs Re} {name text c : Bytes}

theorem canonical_ne_nil (h : l.canonical text = .ok c) : c ≠ [] := by
  obtain ⟨-, e, stags, mtags, -, hcan, rfl⟩ := canonicalOf_of_canonicalize h
  have hclean := hcan.clean
  simp [writtenName, hclean]

theorem htKey_canonical (h : l.canonical text = .ok c) : htKey l.env .metric text = c := by
  have hpos : (0 : Int) < c.length := by
    have hne := List.length_pos_iff.mpr (canonical_ne_nil h)
    omega
  have henv : l.env.canonicalize text = ((c.length : Int), c) := by
    unfold FilterLibs.canonical at h
    simp only [FilterLibs.env, h]
  rw [htKey, henv, if_pos ⟨rfl, hpos⟩]

theorem htKey_long (h : maxMetricTaggedName < text.length) : htKey l.env .metric text = text := by
  have henv : (l.env.canonicalize text).1 = -1 := by
    simp only [FilterLibs.env, canonicalize, canonicalizeEx, if_pos h]
  rw [htKey, if_neg]
  rintro ⟨-, hpos⟩
  rw [henv] at hpos
  omega

theorem eatName_untagged (b : Base64) (sha1Hex : Bytes → Bytes) (hname : ¬ HasMarker name) :
    eatName b sha1Hex (name ++ emptyStreamTags) = .ok ⟨name, [], [], some 0⟩ := by
  have hblock := @eatUpTags_block b sha1Hex maxTags ⟨[], some 0⟩ name [] 124 93
    [83, 84, 91] (by decide) (by decide)
  have hlen : (name ++ emptyStreamTags).length = name.length + 4 + 1 := by
    simp [emptyStreamTags, stOpen, stClose]
  have htext : name ++ emptyStreamTags = name ++ [124, 83, 84, 91] ++ ([] ++ [93]) := by
    simp [emptyStreamTags, stOpen, stClose]
  rw [eatName, hlen, eatTags, htext, stOpen, stClose, hblock]
  exact eatTags_name hname _

theorem canonical_untagged (h : BaseName l name)
    (hlen : (name ++ emptyStreamTags).length ≤ maxMetricTaggedName) :
    l.canonical (name ++ emptyStreamTags) = .ok name := by
  obtain ⟨hcommas, e, stags, mtags, he, hcan, htext⟩ := canonicalOf_of_canonicalize h.canonical
  rw [eatName, eatTags_name h.unmarked, Except.ok.injEq] at he
  subst he
  have hcount : (name ++ emptyStreamTags).count 44 ≤ maxTags := by
    rw [List.count_append]
    exact hcommas
  have hshort : (writtenName (cleanName name) stags mtags).length ≤ maxMetricTaggedName := hcan.length_lt.le
  have hfin := canonicalize_of_canonicalOf hlen hcount
    (eatName_untagged l.b64 l.sha1Hex h.unmarked) hcan hshort
  rwa [← htext] at hfin

theorem htKey_untagged (h : BaseName l name) : htKey l.env .metric (name ++ emptyStreamTags) =
    if (name ++ emptyStreamTags).length ≤ maxMetricTaggedName then name else name ++ emptyStreamTags := by
  split_ifs with hlen
  · exact htKey_canonical (canonical_untagged h hlen)
  · exact htKey_long (by omega)

end Keys

section Lookup

variable {l : FilterLibs Re} {N name foo text c : Bytes} {stags mtags : List TagText}

theorem HasMarker.append (h : HasMarker name) (rest : Bytes) : HasMarker (name ++ rest) := by
  rcases h with h | h
  · exact Or.inl (h.trans (List.infix_append' [] name rest))
  · exact Or.inr (h.trans (List.infix_append' [] name rest))

theorem withEmptyTags_eq (h : N.length < maxMetricTaggedName) :
    withEmptyTags N = N ++ emptyStreamTags.take (maxMetricTaggedName - 1 - N.length) := by
  rw [withEmptyTags, List.take_append, List.take_of_length_le (by omega)]

theorem length_withEmptyTags_le (N : Bytes) : (withEmptyTags N).length ≤ maxMetricTaggedName - 1 :=
  List.length_take_le _ _

theorem length_untagged (name : Bytes) : (name ++ emptyStreamTags).length = name.length + 5 := by
  simp [emptyStreamTags, stOpen, stClose]

theorem withEmptyTags_marked (h : (N ++ emptyStreamTags).length ≤ maxMetricTaggedName) :
    HasMarker (withEmptyTags N) := by
  rw [length_untagged] at h
  have hroom : 4 ≤ maxMetricTaggedName - 1 - N.length := by
    simp only [maxMetricTaggedName] at h ⊢
    omega
  obtain ⟨k, hk⟩ := Nat.exists_eq_add_of_le hroom
  rw [withEmptyTags_eq (by omega), hk]
  have htake : emptyStreamTags.take (4 + k) = stOpen ++ stClose.take k := by
    rw [Nat.add_comm]
    rfl
  rw [htake]
  exact hasMarker_append (Or.inl rfl)

theorem FixedName.eq_name_iff (h : FixedName l.b64 l.qsort N name stags mtags) :
    N = name ↔ ¬ HasMarker N := by
  have hname : ¬ HasMarker name := h.canonical.name
  constructor
  · rintro rfl
    exact hname
  · intro hunmarked
    rcases writtenName_cases name stags mtags with ⟨-, -, he⟩ | ⟨opening, rest, hopening, he⟩
    · rw [h.text, he]
    · rw [h.text, he] at hunmarked
      exact absurd (hasMarker_append hopening) hunmarked

theorem FixedName.take_name (h : FixedName l.b64 l.qsort N name stags mtags) : N.take name.length = name := by
  rw [h.text, writtenName, List.append_assoc, List.take_left]

theorem FixedName.lookedUp_eq (h : FixedName l.b64 l.qsort N name stags mtags) :
    lookedUp N name.length = if N = name then withEmptyTags N else N := by
  unfold lookedUp
  split_ifs with hnul hname hname
  · rfl
  · rcases writtenName_cases name stags mtags with ⟨-, -, he⟩ | ⟨opening, rest, hopening, he⟩
    · exact absurd (h.text.trans he) hname
    · rw [h.text, he] at hnul
      rcases hopening with rfl | rfl <;> simp [stOpen, mtOpen] at hnul
  · exact absurd (by simp [hname]) hnul
  · rfl

theorem call_mlen (h : FixedName l.b64 l.qsort N name stags mtags) {e : FilterEvent}
    (he : e.metric = ⟨N, none⟩) :
    (e.call l.env).mlen = name.length := by
  simp [FilterEvent.call, he, FilterMetric.fullName, FilterLibs.env, h.parse]

theorem writtenName_last (h : writtenName name stags mtags ≠ name) :
    (writtenName name stags mtags).getLast? = some 93 ∨
    (writtenName name stags mtags).getLast? = some 125 := by
  cases mtags with
  | cons t m => exact Or.inr (by simp [writtenName, blockText, mtClose])
  | nil =>
    cases stags with
    | cons t s => exact Or.inl (by simp [writtenName, blockText, stClose])
    | nil => exact absurd (by simp [writtenName, blockText]) h

theorem withEmptyTags_ne_canonical (hN : ¬ HasMarker N) (hlen : N.length < maxMetricTaggedName)
    (hc : l.canonical text = .ok c) (hmark : HasMarker c) : withEmptyTags N ≠ c := by
  obtain ⟨-, e, s, m, he, hcan, rfl⟩ := canonicalOf_of_canonicalize hc
  have hlens := @length_eatTags l.b64 l.sha1Hex _ ⟨text, [], [], some 0⟩ e (by simp) (by simp) he
  have hs := length_le_of_writes hlens.1 hcan.stags
  have hm := length_le_of_writes hlens.2 hcan.mtags
  have hclean : ¬ HasMarker (cleanName e.name) := by
    rintro (h | h)
    · exact hcan.name (Or.inl (infix_of_cleanName (by decide) h))
    · exact hcan.name (Or.inr (infix_of_cleanName (by decide) h))
  have hne : writtenName (cleanName e.name) s m ≠ cleanName e.name := fun h => hclean (h ▸ hmark)
  intro heq
  by_cases hroom : 5 ≤ maxMetricTaggedName - 1 - N.length
  · -- The whole block is there, and the name is read without tags.
    have hfull : withEmptyTags N = N ++ emptyStreamTags := by
      rw [withEmptyTags_eq hlen, List.take_of_length_le
        (by simpa [emptyStreamTags, stOpen, stClose] using hroom)]
    obtain ⟨e', he', hread, -⟩ := @eatName_writtenName l.b64 l.sha1Hex _ hclean s m hs hm
    rw [← heq, hfull, eatName_untagged l.b64 l.sha1Hex hN, Except.ok.injEq] at he'
    subst he'
    have hparts := hread hN
    simp only [Eaten.mk.injEq, List.nil_eq, List.map_eq_nil_iff] at hparts
    obtain ⟨-, rfl, rfl, -⟩ := hparts
    exact hne (by simp [writtenName, blockText])
  · -- The block is cut, and what is left of it does not end as a block does.
    have hlast := writtenName_last hne
    rw [← heq] at hlast hmark
    rw [withEmptyTags_eq hlen] at hlast hmark
    generalize maxMetricTaggedName - 1 - N.length = k at hroom hlast hmark
    have hk : k < 5 := by omega
    interval_cases k
    · exact hN (by simpa using hmark)
    all_goals simp [emptyStreamTags, stOpen, stClose] at hlast

theorem tagged_hit_iff (h : FixedName l.b64 l.qsort N name stags mtags) (hc : l.canonical text = .ok c)
    (hmark : HasMarker c) : c = name ∨ c = lookedUp N name.length ↔ c = N := by
  have hname : ¬ HasMarker name := h.canonical.name
  rw [h.lookedUp_eq]
  split_ifs with hN
  · have hunmarked := h.eq_name_iff.mp hN
    constructor
    · rintro (rfl | rfl)
      · exact absurd hmark hname
      · exact absurd rfl (withEmptyTags_ne_canonical hunmarked h.length_lt hc hmark)
    · rintro rfl
      exact absurd hmark hunmarked
  · constructor
    · rintro (rfl | rfl)
      · exact absurd hmark hname
      · rfl
    · exact Or.inr

theorem bare_hit_iff (h : FixedName l.b64 l.qsort N name stags mtags) (hfoo : ¬ HasMarker foo) :
    foo = name ∨ foo = lookedUp N name.length ↔ foo = name ∨ N = name ∧ foo = withEmptyTags N := by
  rw [h.lookedUp_eq]
  split_ifs with hN
  · simp [hN]
  · have hmark : HasMarker N := not_not.mp fun hu => hN (h.eq_name_iff.mpr hu)
    have hne : foo ≠ N := fun he => hfoo (he ▸ hmark)
    simp [hN, hne]

theorem untagged_hit_iff (h : FixedName l.b64 l.qsort N name stags mtags) (hfoo : BaseName l foo) :
    htKey l.env .metric (foo ++ emptyStreamTags) = name ∨
      htKey l.env .metric (foo ++ emptyStreamTags) = lookedUp N name.length ↔
    (foo ++ emptyStreamTags).length ≤ maxMetricTaggedName ∧ foo = name := by
  rw [htKey_untagged hfoo]
  split_ifs with hlen
  · rw [bare_hit_iff h hfoo.unmarked]
    simp only [hlen, true_and, or_iff_left_iff_imp]
    -- A key that is short enough is not the end of a name that was cut.
    rintro ⟨-, rfl⟩
    refine absurd (withEmptyTags_marked ?_) hfoo.unmarked
    by_contra hlong
    have heq := withEmptyTags_eq h.length_lt
    rw [length_untagged] at hlen hlong
    have hle : N.length ≤ (withEmptyTags N).length := by simp [heq]
    omega
  · have hmark : HasMarker (foo ++ emptyStreamTags) := hasMarker_append (Or.inl rfl)
    have hname : foo ++ emptyStreamTags ≠ name := fun he => h.canonical.name (he ▸ hmark)
    have hlooked : (lookedUp N name.length).length < maxMetricTaggedName := by
      rw [h.lookedUp_eq]
      split_ifs
      · have hle := length_withEmptyTags_le N
        simp only [maxMetricTaggedName] at hle ⊢
        omega
      · exact h.length_lt
    have hne : foo ++ emptyStreamTags ≠ lookedUp N name.length := by
      intro he
      rw [he] at hlen
      omega
    exact iff_of_false (by simp [hname, hne]) fun hfits => hlen hfits.1

end Lookup

section Entries

variable {l : FilterLibs Re} {N name : Bytes} {stags mtags : List TagText} {entries : List MetricEntry}

theorem selects_bare_iff (h : FixedName l.b64 l.qsort N name stags mtags)
    {foo : Bytes} (hfoo : ¬ HasMarker foo) :
    (MetricEntry.bare foo).Selects l N ↔ foo = name := by
  constructor
  · rintro ⟨s, m, he⟩
    exact bareName_unique h.canonical.name hfoo (he.symm.trans h.text)
  · rintro rfl
    exact ⟨stags, mtags, h.text⟩

theorem hit_iff (h : FixedName l.b64 l.qsort N name stags mtags) (hvalid : ∀ e ∈ entries, e.Valid l) :
    (∃ e ∈ entries, htKey l.env .metric e.text = name ∨ htKey l.env .metric e.text = lookedUp N name.length) ↔
      (∃ e ∈ entries, ¬ e.IsUntagged ∧ e.Selects l N) ∨
      (.untagged name ∈ entries ∧ (name ++ emptyStreamTags).length ≤ maxMetricTaggedName) ∨
      (N = name ∧ .bare (withEmptyTags N) ∈ entries) := by
  constructor
  · rintro ⟨e, he, hhit⟩
    have hv := hvalid e he
    cases e with
    | untagged foo =>
      obtain ⟨hfits, rfl⟩ := (untagged_hit_iff h hv).mp hhit
      exact Or.inr (Or.inl ⟨he, hfits⟩)
    | bare foo =>
      rw [MetricEntry.text, htKey_canonical hv.canonical, bare_hit_iff h hv.unmarked] at hhit
      rcases hhit with hfoo | ⟨hN, rfl⟩
      · exact Or.inl ⟨_, he, id, (selects_bare_iff h hv.unmarked).mpr hfoo⟩
      · exact Or.inr (Or.inr ⟨hN, he⟩)
    | tagged text =>
      obtain ⟨c, hc, hmark⟩ := hv
      rw [MetricEntry.text, htKey_canonical hc, tagged_hit_iff h hc hmark] at hhit
      exact Or.inl ⟨_, he, id, hhit ▸ hc⟩
  · rintro (⟨e, he, hkind, hsel⟩ | ⟨he, hfits⟩ | ⟨hN, he⟩)
    · refine ⟨e, he, ?_⟩
      have hv := hvalid e he
      cases e with
      | untagged foo => exact absurd trivial hkind
      | bare foo =>
        rw [MetricEntry.text, htKey_canonical hv.canonical]
        exact Or.inl ((selects_bare_iff h hv.unmarked).mp hsel)
      | tagged text =>
        obtain ⟨c, hc, hmark⟩ := hv
        rw [MetricEntry.text, htKey_canonical hc, tagged_hit_iff h hc hmark]
        exact Except.ok.inj (hc.symm.trans hsel)
    · exact ⟨_, he, (untagged_hit_iff h (hvalid _ he)).mpr ⟨hfits, rfl⟩⟩
    · have hv := hvalid _ he
      refine ⟨_, he, ?_⟩
      rw [MetricEntry.text, htKey_canonical hv.canonical, bare_hit_iff h hv.unmarked]
      exact Or.inr ⟨hN, rfl⟩

theorem selected_iff :
    (∃ e ∈ entries, e.Selects l N) ↔
      (∃ e ∈ entries, ¬ e.IsUntagged ∧ e.Selects l N) ∨ .untagged N ∈ entries := by
  constructor
  · rintro ⟨e, he, hsel⟩
    cases e with
    | untagged foo =>
      obtain rfl : N = foo := hsel
      exact Or.inr he
    | bare foo => exact Or.inl ⟨_, he, id, hsel⟩
    | tagged text => exact Or.inl ⟨_, he, id, hsel⟩
  · rintro (⟨e, he, -, hsel⟩ | he)
    · exact ⟨e, he, hsel⟩
    · exact ⟨_, he, rfl⟩

/-- No entry `name|ST[]` is met by a tagged metric or missed by a long one. -/
structure UntaggedApart (l : FilterLibs Re) (entries : List MetricEntry) (N : Bytes) : Prop where
  tagged : ∀ name, .untagged name ∈ entries → (MetricEntry.bare name).Selects l N → N = name
  long : maxMetricTaggedName < (N ++ emptyStreamTags).length →
    (.untagged N ∈ entries ↔ .bare (withEmptyTags N) ∈ entries)

theorem FixedName.fits (h : FixedName l.b64 l.qsort N name stags mtags) (hne : N ≠ name) :
    (name ++ emptyStreamTags).length ≤ maxMetricTaggedName := by
  have hlen := h.length_lt
  rcases writtenName_cases name stags mtags with ⟨-, -, he⟩ | ⟨opening, rest, hopening, he⟩
  · exact absurd (h.text.trans he) hne
  · have hfour : opening.length = 4 := by rcases hopening with rfl | rfl <;> rfl
    rw [h.text, he, List.length_append, List.length_append, hfour] at hlen
    rw [length_untagged]
    omega

theorem untaggedApart_iff (h : FixedName l.b64 l.qsort N name stags mtags)
    (hvalid : ∀ e ∈ entries, e.Valid l) :
    UntaggedApart l entries N ↔
      ((.untagged name ∈ entries ∧ (name ++ emptyStreamTags).length ≤ maxMetricTaggedName) ∨
        (N = name ∧ .bare (withEmptyTags N) ∈ entries) ↔ .untagged N ∈ entries) := by
  have hmet : (∀ foo, .untagged foo ∈ entries → (MetricEntry.bare foo).Selects l N → N = foo) ↔
      (.untagged name ∈ entries → N = name) := by
    constructor
    · intro hall hmem
      exact hall name hmem ⟨stags, mtags, h.text⟩
    · intro hone foo hmem hsel
      have hfoo : BaseName l foo := hvalid _ hmem
      obtain rfl := (selects_bare_iff h hfoo.unmarked).mp hsel
      exact hone hmem
  have hcut : .bare (withEmptyTags N) ∈ entries → ¬ HasMarker (withEmptyTags N) :=
    fun hmem => (hvalid _ hmem).unmarked
  rw [show UntaggedApart l entries N ↔ _ ∧
    _ from ⟨fun hu => ⟨hu.tagged, hu.long⟩, fun hu => ⟨hu.1, hu.2⟩⟩, hmet]
  by_cases hN : N = name
  · subst hN
    by_cases hfits : (N ++ emptyStreamTags).length ≤ maxMetricTaggedName
    · have hbare : .bare (withEmptyTags N) ∉ entries := fun hmem => hcut hmem (withEmptyTags_marked hfits)
      simp only [hfits, hbare, Nat.not_lt.mpr hfits, and_true, and_false, or_false,
        false_imp_iff, implies_true]
    · simp only [hfits, and_false, false_or, true_and, implies_true, Nat.lt_of_not_le hfits, true_imp_iff]
      exact iff_comm
  · have hmark : HasMarker N := not_not.mp fun hu => hN (h.eq_name_iff.mpr hu)
    have hbare : .bare (withEmptyTags N) ∉ entries := by
      intro hmem
      refine hcut hmem ?_
      rw [withEmptyTags_eq h.length_lt]
      exact hmark.append _
    have huntagged : .untagged N ∉ entries := by
      intro hmem
      exact (hvalid _ hmem).unmarked hmark
    simp only [hN, hbare, huntagged, h.fits hN, and_true, false_and, or_false,
      iff_false, imp_false, implies_true]

end Entries

/-- A rule that lists metrics, at any time after it was compiled, matches a metric just when one
of its entries stands for the metric, if and only if an entry other than a `name|ST[]` stands for
it or the entries of that form keep apart from it. -/
theorem metric_entries_select_iff (l : FilterLibs Re) {fs : FiltersetXml} {x : RuleXml}
    {r : FilterRule Re (SearchAst TagMatch)} (hr : compileXmlRule l.env fs x = some r)
    (hauto : (x.field .metric).autoAdd = none) {entries : List MetricEntry} (hne : entries ≠ [])
    (hentries : (x.field .metric).entries = entries.map MetricEntry.text)
    (hvalid : ∀ e ∈ entries, e.Valid l) {N : Bytes} (hN : l.canonical N = .ok N)
    (past : List RuleEval) {ev : RuleEval} (hev : ev.event.metric = ⟨N, none⟩) :
    (ev.need l.env (ruleAfter l.env r past) .metric = false ↔ ∃ e ∈ entries, e.Selects l N) ↔
      (∃ e ∈ entries, ¬ e.IsUntagged ∧ e.Selects l N) ∨ UntaggedApart l entries N := by
  obtain ⟨name, stags, mtags, h⟩ := exists_fixedName hN
  have hlisted : (x.field .metric).entries ≠ [] := by simpa [hentries] using hne
  have hmax : (r.matcher .metric).autoHashMax = 0 := by
    rw [(compileXmlRule_spec l.env hr).1 .metric, hauto]
    split_ifs <;> rfl
  have hht : ((ruleAfter l.env r past).matcher .metric).ht =
      some ((entries.map MetricEntry.text).map (htKey l.env .metric)).toFinset := by
    rw [matcher_after_of_unlimited hmax, compileXmlRule_ht hr (Or.inl hlisted), hentries]
  have hmatch : ev.need l.env (ruleAfter l.env r past) .metric = false ↔
      ∃ e ∈ entries, htKey l.env .metric e.text = name ∨
        htKey l.env .metric e.text = lookedUp N name.length := by
    rw [need_metric hht, call_mlen h hev, hev]
    dsimp only
    rw [h.take_name]
    simp only [Bool.not_eq_false', Bool.or_eq_true, decide_eq_true_eq, List.mem_toFinset,
      List.map_map, List.mem_map,
      Function.comp_apply]
    constructor
    · rintro (⟨e, he, hkey⟩ | ⟨e, he, hkey⟩)
      · exact ⟨e, he, Or.inl hkey⟩
      · exact ⟨e, he, Or.inr hkey⟩
    · rintro ⟨e, he, hkey | hkey⟩
      · exact Or.inl ⟨e, he, hkey⟩
      · exact Or.inr ⟨e, he, hkey⟩
  rw [hmatch, hit_iff h hvalid, selected_iff, untaggedApart_iff h hvalid]
  by_cases hother : ∃ e ∈ entries, ¬ e.IsUntagged ∧ e.Selects l N
  · simp [hother]
  · rw [or_iff_right hother, or_iff_right hother, or_iff_right hother]

def metricRule (entries : List MetricEntry) : RuleXml where
  type := some acceptText
  id := none
  filterFlushPeriod := none
  field f := if f = .metric then ⟨entries.map MetricEntry.text, none, none⟩ else ⟨[], none, none⟩
  streamTags := none
  measurementTags := none

theorem metric_entries_select_a :
    ∃ r, compileXmlRule plainLibs.env emptyFilterset (metricRule [.untagged [97]]) = some r ∧
      ((presenting .metric [97] .zero).need plainLibs.env (ruleAfter plainLibs.env r []) .metric = false ↔
        ∃ e ∈ [MetricEntry.untagged [97]], e.Selects plainLibs [97]) := by
  have hbase : BaseName plainLibs [97] := ⟨by rfl, by decide⟩
  have hvalid : ∀ e ∈ [MetricEntry.untagged [97]], e.Valid plainLibs := by
    intro e he
    obtain rfl := List.mem_singleton.mp he
    exact hbase
  have hapart : UntaggedApart plainLibs [.untagged [97]] [97] := by
    refine ⟨fun name hname _ => ?_, fun hlong => absurd hlong (by decide)⟩
    cases List.mem_singleton.mp hname
    rfl
  have hentries : ((metricRule [.untagged [97]]).field .metric).entries =
      [MetricEntry.untagged [97]].map MetricEntry.text := rfl
  exact ⟨_, rfl, (metric_entries_select_iff plainLibs rfl rfl (by simp) hentries
    hvalid hbase.canonical [] rfl).mpr
    (Or.inr hapart)⟩

theorem untagged_entry_matches_tagged :
    ∃ r, compileXmlRule plainLibs.env emptyFilterset (metricRule [.untagged [97]]) = some r ∧
      plainLibs.canonical [97, 124, 83, 84, 91, 98, 58, 99, 93] = .ok [97, 124, 83, 84, 91, 98, 58, 99, 93] ∧
      (presenting .metric [97, 124, 83, 84, 91, 98, 58, 99, 93] .zero).need plainLibs.env r .metric = false ∧
      ¬ ∃ e ∈ [MetricEntry.untagged [97]], e.Selects plainLibs [97, 124, 83, 84, 91, 98, 58, 99, 93] := by
  refine ⟨_, rfl, by rfl, by decide +kernel, ?_⟩
  rintro ⟨e, he, hsel⟩
  obtain rfl := List.mem_singleton.mp he
  cases hsel

end Reconnoiter
