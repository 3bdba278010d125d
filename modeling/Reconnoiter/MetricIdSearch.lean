import Reconnoiter.TagSearch
import Reconnoiter.Uuid

/-! Searches against a metric id, `noit_metric_tag_search_evaluate_against_metric_id`. The
check's uuid and the metric's name are searched as tags that are made for the search. -/

namespace Reconnoiter

structure MetricIdTags where
  id : Uuid
  name : CString
  check : List StoredTag
  stream : List StoredTag
  measurement : List StoredTag

def bufferTag (categorySize : Nat) (text : Bytes) : StoredTag := ⟨⟨text, categorySize⟩, [0]⟩

def checkUuidKey : Bytes := [95, 95, 99, 104, 101, 99, 107, 95, 117, 117, 105, 100]

def nameKey : CString := ⟨[95, 95, 110, 97, 109, 101], by decide⟩

def uuidTag (u : UuidText) (id : MetricIdTags) : StoredTag :=
  bufferTag 13 (checkUuidKey ++ 58 :: u.unparseLower id.id)

def nameTag (id : MetricIdTags) : StoredTag :=
  bufferTag 7 ((nameKey.bytes ++ 58 :: id.name.bytes).take maxPairLen)

def evaluateAgainstMetricId (b : Base64) (u : UuidText) (search : SearchAst TagMatch)
    (id : MetricIdTags) : Option Bool :=
  if id.check.length > maxTags - 1 then some false
  else if id.stream.length > maxTags - 1 then some false
  else
    let tagsets := [id.check ++ [uuidTag u id], id.stream ++ [nameTag id], id.measurement]
    search.evaluate fun m => matchEvaluateAgainstTagsMulti b m (tagsets.map (·.map some))

def nameSearch (s : CString) : SearchAst TagMatch := .spec (Leaf.pair nameKey s).tagMatch

def KeyedOther (b : Base64) (t : StoredTag) : Prop :=
  t.tag.text.length < t.tag.categorySize ∨
    matchStr b t.memory (t.tag.categorySize - 1) ⟨some varExactMatch, some nameKey⟩ = some false

def maxSearchedName : Nat := 249

section

variable {b : Base64} {u : UuidText} {id : MetricIdTags} {s : CString}

theorem matchTag_of_keyedOther {t : StoredTag} (h : KeyedOther b t) (s : CString) :
    matchTag b (Leaf.pair nameKey s).tagMatch t = some false := by
  rw [matchTag]
  rcases h with h | h
  · rw [if_neg (Nat.not_le.mpr h)]
    rfl
  · split_ifs with hsize
    · simp [Leaf.tagMatch, h]
    · rfl

theorem matchStr_plain {subj : Bytes} (n : Nat) (m : VarMatch) (h : ¬ b64Open <+: subj) :
    matchStr b subj n m = some (m.accepts (some (subj.take n))) := by
  rw [matchStr, if_neg (by simpa using h), if_pos (by omega), Int.toNat_natCast]

theorem keyedOther_uuidTag (u : UuidText) (id : MetricIdTags) : KeyedOther b (uuidTag u id) := by
  right
  have hplain : ¬ b64Open <+: (uuidTag u id).memory := by
    simp [uuidTag, bufferTag, StoredTag.memory, checkUuidKey, b64Open]
  have htake : (uuidTag u id).memory.take 12 = checkUuidKey := by
    simp [uuidTag, bufferTag, StoredTag.memory, checkUuidKey]
  rw [show ((uuidTag u id).tag.categorySize : Int) - 1 = (12 : Nat) from rfl,
    matchStr_plain 12 _ hplain, htake]
  decide

theorem matchTags_skip {m : TagMatch} {tags : List StoredTag} (set : List (Option StoredTag))
    (h : ∀ t ∈ tags, matchTag b m t = some false) :
    matchTags b m (tags.map some ++ set) = matchTags b m set := by
  induction tags with
  | nil => rfl
  | cons t tags ih =>
    rw [List.forall_mem_cons] at h
    rw [List.map_cons, List.cons_append, matchTags, h.1]
    exact ih h.2

theorem matchTags_one (m : TagMatch) (t : StoredTag) : matchTags b m [some t] = matchTag b m t := by
  rw [matchTags, matchTags]
  rcases matchTag b m t with _ | _ | _ <;> rfl

theorem evaluate_nameSearch (hcheck : id.check.length < maxTags) (hstream : id.stream.length < maxTags)
    (hkeys : ∀ t ∈ id.check ++ id.stream ++ id.measurement, KeyedOther b t) :
    evaluateAgainstMetricId b u (nameSearch s) id =
      matchTag b (Leaf.pair nameKey s).tagMatch (nameTag id) := by
  have hother : ∀ t ∈ id.check ++ id.stream ++ id.measurement,
      matchTag b (Leaf.pair nameKey s).tagMatch t = some false :=
        fun t ht => matchTag_of_keyedOther (hkeys t ht) s
  simp only [List.mem_append] at hother
  have hcheck' : matchTags b (Leaf.pair nameKey s).tagMatch ((id.check ++ [uuidTag u id]).map some) =
    some false := by
    rw [List.map_append, matchTags_skip _ fun t ht => hother t (Or.inl (Or.inl ht)),
      List.map_singleton, matchTags_one]
    exact matchTag_of_keyedOther (keyedOther_uuidTag u id) s
  have hstream' : matchTags b (Leaf.pair nameKey s).tagMatch ((id.stream ++ [nameTag id]).map some) =
      matchTag b (Leaf.pair nameKey s).tagMatch (nameTag id) := by
    rw [List.map_append, matchTags_skip _ fun t ht => hother t (Or.inl (Or.inr ht)),
      List.map_singleton, matchTags_one]
  have hmeasurement : matchTags b (Leaf.pair nameKey s).tagMatch (id.measurement.map some) = some false := by
    have hskip := matchTags_skip [] fun t ht => hother t (Or.inr ht)
    rwa [List.append_nil] at hskip
  rw [evaluateAgainstMetricId, if_neg (by omega), if_neg (by omega), nameSearch, SearchAst.evaluate]
  simp only [List.map_cons, List.map_nil, matchEvaluateAgainstTagsMulti, hcheck', hstream', hmeasurement]
  rcases matchTag b (Leaf.pair nameKey s).tagMatch (nameTag id) with _ | _ | _ <;> rfl

theorem matchTag_nameTag : matchTag b (Leaf.pair nameKey s).tagMatch (nameTag id) =
    matchStr b (id.name.bytes.take maxSearchedName ++ [0]) (id.name.bytes.take maxSearchedName).length
      ⟨some varExactMatch, some s⟩ := by
  have htext : (nameKey.bytes ++ 58 :: id.name.bytes).take maxPairLen =
      nameKey.bytes ++ 58 :: id.name.bytes.take maxSearchedName := rfl
  have hmemory : (nameTag id).memory = nameKey.bytes ++
    58 :: (id.name.bytes.take maxSearchedName ++ [0]) := by
    rw [StoredTag.memory, nameTag, bufferTag, htext]
    simp
  have hplain : ¬ b64Open <+: (nameTag id).memory := by
    simp [hmemory, nameKey, b64Open]
  have hcat : matchStr b (nameTag id).memory ((nameTag id).tag.categorySize - 1)
    ⟨some varExactMatch, some nameKey⟩ =
      some true := by
    rw [show ((nameTag id).tag.categorySize : Int) - 1 = (6 : Nat) from rfl,
      matchStr_plain 6 _ hplain, hmemory]
    rfl
  have hsize : (nameTag id).tag.text.length = 7 + (id.name.bytes.take maxSearchedName).length := by
    rw [nameTag, bufferTag, htext]
    simp [nameKey]
    omega
  have hvalue : ((nameTag id).tag.text.length : Int) - (nameTag id).tag.categorySize =
      (id.name.bytes.take maxSearchedName).length := by
    rw [hsize, show (nameTag id).tag.categorySize = 7 from rfl]
    omega
  have hdrop : (nameTag id).memory.drop (nameTag id).tag.categorySize =
    id.name.bytes.take maxSearchedName ++ [0] := by
    rw [hmemory]
    rfl
  rw [matchTag, if_pos (by rw [hsize]; exact Nat.le_add_right 7 _)]
  simp only [Leaf.tagMatch, hcat, hvalue, hdrop]
  rfl

theorem CString.beq_bytes (s t : CString) : (s.bytes == t.bytes) = decide (t = s) := by
  rw [Bool.eq_iff_iff, beq_iff_eq, decide_eq_true_eq]
  constructor
  · intro h
    cases s
    cases t
    simp_all
  · rintro rfl
    rfl

theorem not_match_encoded {n : Bytes} {p : CString} (h : b64Open <+: n) (hlen : n.length ≤ p.bytes.length) :
    matchStr b (n ++ [0]) n.length ⟨some varExactMatch, some p⟩ ≠ some true := by
  intro hmatch
  have hopen : b64Open <+: n ++ [0] := h.trans (List.prefix_append _ _)
  have htwo : 2 ≤ n.length := h.length_le
  rcases matchStr_exact hmatch with ⟨-, -, -, hdecode⟩ | ⟨hplain, -⟩
  · have hdecoded := b.length_decode _ _ hdecode
    rw [if_pos (by omega)] at hdecoded
    have hupTo := length_upTo_le 34
    have hstart := hupTo (((n ++ [0]).drop 2).take ((n.length : Int) - 2).toNat)
    simp only [List.length_take, List.length_drop, List.length_append, List.length_singleton] at hstart
    omega
  · exact hplain hopen

theorem matchStr_name {n : Bytes} (h : ¬ b64Open <+: n) :
    matchStr b (n ++ [0]) n.length ⟨some varExactMatch, some s⟩ = some (s.bytes == n) := by
  have hplain : ¬ b64Open <+: n ++ [0] := mt (b64Open_append_iff (by simp)).mp h
  rw [matchStr_plain _ _ hplain, List.take_left]
  rfl

end

/-- Searching for the name of a metric finds this name and no other exactly when the name fits
the tag made for it and does not begin like an encoded value. -/
theorem name_search_exact_iff {b : Base64} {u : UuidText} {id : MetricIdTags}
    (hcheck : id.check.length < maxTags) (hstream : id.stream.length < maxTags)
    (hkeys : ∀ t ∈ id.check ++ id.stream ++ id.measurement, KeyedOther b t) :
    (∀ s, evaluateAgainstMetricId b u (nameSearch s) id = some (decide (id.name = s))) ↔
      id.name.bytes.length ≤ maxSearchedName ∧ ¬ b64Open <+: id.name.bytes := by
  simp only [evaluate_nameSearch hcheck hstream hkeys, matchTag_nameTag]
  have hpre : id.name.bytes.take maxSearchedName <+: id.name.bytes := List.take_prefix _ _
  constructor
  · intro h
    have hopen : ¬ b64Open <+: id.name.bytes := by
      intro hopen
      have htwo : 2 ≤ id.name.bytes.length := hopen.length_le
      have hshort : b64Open.length ≤ (id.name.bytes.take maxSearchedName).length := by
        rw [List.length_take, show b64Open.length = 2 from rfl, show maxSearchedName = 249 from rfl]
        omega
      have hself := h id.name
      rw [decide_eq_true rfl] at hself
      exact not_match_encoded (List.prefix_of_prefix_length_le hopen hpre hshort) hpre.length_le hself
    refine ⟨?_, hopen⟩
    by_contra hlong
    -- the name is cut, and what is left of it is found
    let cut : CString := ⟨id.name.bytes.take maxSearchedName, fun hmem => id.name.noNul (hpre.subset hmem)⟩
    have hcut := h cut
    rw [matchStr_name fun hopen' => hopen (hopen'.trans hpre), beq_self_eq_true, Option.some_inj, eq_comm,
      decide_eq_true_eq] at hcut
    have hlen := congrArg (fun s => s.bytes.length) hcut
    simp only [cut, List.length_take] at hlen
    omega
  · rintro ⟨hlen, hopen⟩ s
    rw [List.take_of_length_le hlen, matchStr_name hopen, CString.beq_bytes]

/-- The metric foo with a tag is found under the name foo and no other. -/
theorem name_search_exact_foo :
    ∃ id : MetricIdTags, id.name.bytes = [102, 111, 111] ∧ id.stream ≠ [] ∧
      ∀ s, evaluateAgainstMetricId standardBase64 standardUuidText (nameSearch s) id =
        some (decide (id.name = s)) := by
  refine ⟨⟨Uuid.zero, ⟨[102, 111, 111], by decide⟩, [], [⟨⟨[97, 58, 98], 2⟩, []⟩], []⟩, rfl, by simp, ?_⟩
  refine (name_search_exact_iff (by decide) (by decide) fun t ht => ?_).mpr ⟨by decide, by decide⟩
  obtain rfl : t = ⟨⟨[97, 58, 98], 2⟩, []⟩ := by simpa using ht
  exact Or.inr (by decide)

theorem name_search_decodes :
    ∃ (id : MetricIdTags) (foo : CString), id.name.bytes = [98, 34, 90, 109, 57, 118, 34] ∧
      foo.bytes = [102, 111, 111] ∧
      id.check = [] ∧ id.stream = [] ∧ id.measurement = [] ∧
      evaluateAgainstMetricId standardBase64 standardUuidText (nameSearch id.name) id = some false ∧
      evaluateAgainstMetricId standardBase64 standardUuidText (nameSearch foo) id = some true :=
  ⟨⟨Uuid.zero, ⟨[98, 34, 90, 109, 57, 118, 34], by decide⟩, [], [], []⟩,
    ⟨[102, 111, 111], by decide⟩, rfl, rfl, rfl, rfl,
    rfl, by decide +kernel, by decide +kernel⟩

end Reconnoiter
