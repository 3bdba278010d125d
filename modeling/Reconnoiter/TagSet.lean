import Reconnoiter.TagParse
import Reconnoiter.CanonicalReread
import Reconnoiter.SortDedup

/-! `noit_metric_tagset_init`: a tag string becomes an array of pointers into
it, with one slot for each comma-separated tag. Compaction sorts the array and
closes the gaps that repeated tags leave, but the set keeps its first length. -/

namespace Reconnoiter

structure StoredTag where
  tag : Tag
  rest : Bytes
  deriving DecidableEq, Repr

def tagsCount (str : Bytes) : Nat := if str.length = 0 then 0 else str.count 44 + 1

/-- The loop of `noit_metric_tags_parse_with_context`, which the fuel does not
cut short when there is as much of it as there are bytes. -/
def tagsParseLoop (tagCount : Nat) : Nat → Bytes → List StoredTag → Option (List StoredTag)
  | 0, _, tags => some tags
  | fuel + 1, tagnm, tags =>
    if 0 < tagnm.length ∧ tags.length < tagCount then
      match parseOne tagnm with
      | none => none
      | some r =>
        let next := tagnm.drop r.size
        let tags := if r.tooLong then tags else tags ++ [⟨r.tag, next⟩]
        if 0 < next.length then
          if next.head? ≠ some 44 ∨ next.length = 1 then none
          else tagsParseLoop tagCount fuel next.tail tags
        else tagsParseLoop tagCount fuel next tags
    else some tags

def StoredTag.compareKey (b : Base64) (t : StoredTag) : Bytes :=
  (decodeTag b maxPairLen t.tag.text).getD []

def tagsCompact {b : Base64} (q : QSort (StoredTag.compareKey b)) (tags : List StoredTag) :
    List StoredTag :=
  if tags.length ≤ 1 then tags else squashInPlace (StoredTag.compareKey b) (q.run tags)

/-- `noit_metric_tagset_init`. The slots of tags that were too long are never
filled; `none` is such a slot. -/
def tagsetInit {b : Base64} (q : QSort (StoredTag.compareKey b)) (str : Bytes) :
    Option (List (Option StoredTag)) :=
  let tagCount := tagsCount str
  if tagCount = 0 then some []
  else
    match tagsParseLoop tagCount str.length str [] with
    | none => none
    | some [] => none
    | some tags =>
      some ((tagsCompact q tags).map some ++ List.replicate (tagCount - tags.length) none)

def tagTexts (str : Bytes) : List Bytes := if str = [] then [] else str.splitOn 44

theorem length_splitOn (str : Bytes) : (str.splitOn 44).length = str.count 44 + 1 := by
  induction str with
  | nil => rfl
  | cons c str ih =>
    rw [List.splitOn_cons_eq_if_modifyHead, List.count_cons]
    by_cases hc : c = 44
    · simp [hc, ih]
    · simp [hc, ih]

theorem tagsCount_eq {str : Bytes} (h : str ≠ []) : tagsCount str = (str.splitOn 44).length := by
  rw [tagsCount, if_neg (by simpa using h), length_splitOn]

theorem tagsParseLoop_nil (tagCount fuel : Nat) (tags : List StoredTag) :
    tagsParseLoop tagCount fuel [] tags = some tags := by
  cases fuel with
  | zero => rfl
  | succ fuel => simp [tagsParseLoop]

theorem tagTexts_split {input : Bytes} (h : input ≠ []) :
    ∃ t rest, input = t ++ rest ∧ 44 ∉ t ∧ ((rest = [] ∧ tagTexts input = [t]) ∨
      ∃ r, rest = 44 :: r ∧ tagTexts input = t :: r.splitOn 44) := by
  rw [tagTexts, if_neg h]
  by_cases hc : 44 ∈ input
  · obtain ⟨t, r, rfl, ht⟩ := List.eq_append_cons_of_mem hc
    exact ⟨t, 44 :: r, rfl, ht, Or.inr ⟨r, rfl, List.splitOn_append_cons_self_of_not_mem ht r⟩⟩
  · exact ⟨input, [], by simp, hc, Or.inl ⟨rfl, List.splitOn_eq_singleton hc⟩⟩

def StoredFrom (st : StoredTag) (t : Bytes) : Prop :=
  st.tag = storedAs t ∧ (st.rest = [] ∨ ∃ r, st.rest = 44 :: r)

def slotTexts (room : Nat) (texts : List Bytes) : List Bytes :=
  (texts.filter fun t => t.length ≤ maxPairLen).take room

theorem tagsParseLoop_texts {tagCount fuel : Nat} {str : Bytes} {tags out : List StoredTag}
    (hfuel : str.length ≤ fuel) (h : tagsParseLoop tagCount fuel str tags = some out) :
    ∃ new, out = tags ++ new ∧
      List.Forall₂ StoredFrom new (slotTexts (tagCount - tags.length) (tagTexts str)) := by
  induction fuel generalizing str tags with
  | zero =>
    obtain rfl := List.length_eq_zero_iff.mp (Nat.le_zero.mp hfuel)
    rw [tagsParseLoop_nil] at h
    exact ⟨[], by simp [← Option.some.inj h], by simp [tagTexts, slotTexts]⟩
  | succ fuel ih =>
    rw [tagsParseLoop] at h
    by_cases hgo : 0 < str.length ∧ tags.length < tagCount
    swap
    · rw [if_neg hgo] at h
      refine ⟨[], by simp [← Option.some.inj h], ?_⟩
      by_cases hnil : str = []
      · simp [hnil, tagTexts, slotTexts]
      · have hfull : tagCount - tags.length = 0 := by
          have hpos := List.length_pos_iff.mpr hnil
          omega
        simp [hfull, slotTexts]
    rw [if_pos hgo] at h
    obtain ⟨t, rest, rfl, ht, htexts⟩ := tagTexts_split (List.length_pos_iff.mp hgo.1)
    have hrest : rest = [] ∨ ∃ r, rest = 44 :: r := htexts.imp And.left fun ⟨r, hr, _⟩ => ⟨r, hr⟩
    cases hp : parseOne (t ++ rest) with
    | none => simp [hp] at h
    | some r =>
      obtain ⟨-, hsize, -, hr⟩ := parseOne_piece ht hrest hp
      simp only [hp, hsize, List.drop_left] at h
      -- The slots after this text, and what is left of the string.
      obtain ⟨new₁, htags, hnew₁⟩ : ∃ new₁, (if r.tooLong = true then tags else tags ++ [⟨r.tag, rest⟩]) =
          tags ++ new₁ ∧ ∀ more, slotTexts (tagCount - tags.length) (t :: more) =
            slotTexts (tagCount - tags.length) [t] ++
              slotTexts (tagCount - (tags ++ new₁).length) more ∧
            List.Forall₂ StoredFrom new₁ (slotTexts (tagCount - tags.length) [t]) := by
        by_cases hlong : maxPairLen < t.length
        · rw [if_pos hlong] at hr
          refine ⟨[], by simp [hr], fun more => ?_⟩
          simp [slotTexts, Nat.not_le.mpr hlong]
        · rw [if_neg hlong] at hr
          obtain ⟨m, hm⟩ : ∃ m, tagCount - tags.length = m + 1 :=
            Nat.exists_eq_add_one_of_ne_zero (by omega)
          have hm' : tagCount - (tags.length + 1) = m := by omega
          refine ⟨[⟨r.tag, rest⟩], by simp [hr.1], fun more => ?_⟩
          have hshort : t.length ≤ maxPairLen := Nat.not_lt.mp hlong
          simp only [slotTexts, hm, List.filter_cons, hshort, decide_true, if_true, List.filter_nil,
            List.take_succ_cons, List.take_nil, List.length_append, List.length_singleton, hm']
          exact ⟨rfl, .cons ⟨hr.2, hrest⟩ .nil⟩
      rw [htags] at h
      rcases htexts with ⟨rfl, he⟩ | ⟨r', rfl, he⟩
      · simp only [List.length_nil, lt_irrefl, if_false, tagsParseLoop_nil] at h
        exact ⟨new₁, (Option.some.inj h).symm, he ▸ (hnew₁ []).2⟩
      · simp only [List.length_cons, Nat.zero_lt_succ, if_true, List.head?_cons, ne_eq,
          not_true_eq_false, false_or, Nat.add_eq_right, List.length_eq_zero_iff,
          List.tail_cons] at h
        split_ifs at h with hnil
        simp only [List.length_append, List.length_cons] at hfuel
        obtain ⟨new, hout, hnew⟩ := ih (by omega) h
        rw [tagTexts, if_neg hnil] at hnew
        obtain ⟨hsplit, hfirst⟩ := hnew₁ (r'.splitOn 44)
        refine ⟨new₁ ++ new, by rw [hout, List.append_assoc], ?_⟩
        rw [he, hsplit]
        exact List.rel_append hfirst hnew

theorem tagsetInit_one {b : Base64} {q : QSort (StoredTag.compareKey b)} {t : Bytes}
    {set : List (Option StoredTag)} (hne : t ≠ []) (hc : 44 ∉ t) (h : tagsetInit q t = some set) :
    t.length ≤ maxPairLen ∧ isTaggableKey (upTo 58 t) = true ∧
      set = [some ⟨storedAs t, []⟩] := by
  have hcount : tagsCount t = 1 := by
    rw [tagsCount_eq hne, List.splitOn_eq_singleton hc, List.length_singleton]
  obtain ⟨n, hn⟩ := Nat.exists_eq_succ_of_ne_zero (fun hz => hne (List.length_eq_zero_iff.mp hz))
  simp only [tagsetInit, hcount, one_ne_zero, if_false] at h
  cases hp : parseOne t with
  | none =>
    simp [tagsParseLoop, hn, hp] at h
  | some r =>
    obtain ⟨_, hsize, hk, hr⟩ := @parseOne_piece t [] r hc (Or.inl rfl) (by rw [List.append_nil]; exact hp)
    have hloop : tagsParseLoop 1 t.length t [] =
        some (if r.tooLong then [] else [⟨r.tag, []⟩]) := by
      have hdrop : t.drop r.size = [] := by simp [hsize]
      rw [hn, tagsParseLoop, if_pos (by simp [hn])]
      simp only [hp, hdrop, List.length_nil, lt_irrefl, if_false, tagsParseLoop_nil, List.nil_append]
    rw [hloop] at h
    by_cases hlong : maxPairLen < t.length
    · rw [if_pos hlong] at hr
      simp [hr] at h
    · rw [if_neg hlong] at hr
      refine ⟨by omega, hk (Or.inr rfl), ?_⟩
      simp only [hr.1, hr.2, Bool.false_eq_true, if_false, Option.some.injEq] at h
      rw [← h]
      simp [tagsCompact]

def KeyValue (t : Bytes) : Prop :=
  58 ∈ t ∧ t.length ≤ maxPairLen ∧ (upTo 58 t).length ≤ maxCatLen

instance (t : Bytes) : Decidable (KeyValue t) := inferInstanceAs (Decidable (_ ∧ _))

/-- How a tag with a colon is stored: with the size of its key and the colon,
before a comma or the end of the string. -/
def Stores (st : StoredTag) (t : Bytes) : Prop :=
  st.tag = ⟨t, (upTo 58 t).length + 1⟩ ∧ (st.rest = [] ∨ ∃ r, st.rest = 44 :: r)

theorem stores_of_storedFrom {st : StoredTag} {t : Bytes} (hkv : KeyValue t)
    (h : StoredFrom st t) : Stores st t := by
  obtain ⟨hm, -, hcat⟩ := hkv
  refine ⟨?_, h.2⟩
  rw [h.1, storedAs, if_pos hm, Nat.mod_eq_of_lt (by simp only [maxCatLen] at hcat; omega)]

theorem tagsParseLoop_keyValue {tagCount fuel : Nat} {str : Bytes} {tags out : List StoredTag}
    (hne : str ≠ []) (hkv : ∀ t ∈ str.splitOn 44, KeyValue t) (hfuel : str.length ≤ fuel)
    (hroom : tags.length + (str.splitOn 44).length ≤ tagCount)
    (h : tagsParseLoop tagCount fuel str tags = some out) :
    ∃ new, out = tags ++ new ∧ List.Forall₂ Stores new (str.splitOn 44) := by
  obtain ⟨new, hout, hst⟩ := tagsParseLoop_texts hfuel h
  have hshort : (str.splitOn 44).filter (fun t => t.length ≤ maxPairLen) = str.splitOn 44 := by
    apply List.filter_eq_self.mpr
    intro t ht
    exact decide_eq_true (hkv t ht).2.1
  rw [tagTexts, if_neg hne, slotTexts, hshort, List.take_of_length_le (by omega)] at hst
  have hboth := (List.forall₂_and_left _ _).mpr ⟨hkv, hst.flip⟩
  exact ⟨new, hout, (hboth.imp fun _ _ hx => stores_of_storedFrom hx.1 hx.2).flip⟩

theorem mem_tagsCompact {b : Base64} {q : QSort (StoredTag.compareKey b)} {tags : List StoredTag}
    {x : StoredTag} (hx : x ∈ tagsCompact q tags) : x ∈ tags := by
  unfold tagsCompact at hx
  split_ifs at hx
  · exact hx
  · exact (q.perm tags).subset (mem_of_mem_squashInPlace hx)

theorem exists_mem_tagsCompact {b : Base64} (q : QSort (StoredTag.compareKey b))
    {tags : List StoredTag} {x : StoredTag} (hx : x ∈ tags) :
    ∃ y ∈ tagsCompact q tags, y.compareKey b = x.compareKey b := by
  unfold tagsCompact
  split_ifs
  · exact ⟨x, hx, rfl⟩
  · exact exists_mem_squashInPlace ((q.perm tags).symm.subset hx)

theorem tagsetInit_keyValue {b : Base64} {q : QSort (StoredTag.compareKey b)} {str : Bytes}
    {set : List (Option StoredTag)} (h : tagsetInit q str = some set)
    (hkv : ∀ t ∈ tagTexts str, KeyValue t) :
    ∃ tags : List StoredTag, set = tags.map some ∧
      (∀ st ∈ tags, ∃ t ∈ tagTexts str, Stores st t) ∧
      ∀ t ∈ tagTexts str, ∃ st ∈ tags, ∃ st', Stores st' t ∧ st.compareKey b = st'.compareKey b := by
  by_cases hne : str = []
  · subst hne
    simp only [tagsetInit, tagsCount, List.length_nil, if_true, Option.some.injEq] at h
    exact ⟨[], h.symm, by simp, by simp [tagTexts]⟩
  have htexts : tagTexts str = str.splitOn 44 := by rw [tagTexts, if_neg hne]
  have hcount := tagsCount_eq hne
  have hpos := List.length_pos_iff.mpr (List.splitOn_ne_nil 44 str)
  rw [htexts] at hkv ⊢
  simp only [tagsetInit, hcount, hpos.ne', if_false] at h
  split at h
  · exact absurd h (by simp)
  · exact absurd h (by simp)
  rename_i tags _ hloop
  obtain ⟨new, rfl, hst⟩ := tagsParseLoop_keyValue hne hkv le_rfl (by simp) hloop
  rw [hst.length_eq, Nat.sub_self, List.replicate_zero, List.append_nil, Option.some.injEq] at h
  refine ⟨_, h.symm, fun st hm => ?_, fun t ht => ?_⟩
  · obtain ⟨i, hi, rfl⟩ := List.mem_iff_getElem.mp (mem_tagsCompact hm)
    have hj : i < (str.splitOn 44).length := hst.length_eq ▸ hi
    exact ⟨_, List.getElem_mem hj, hst.get hi hj⟩
  · obtain ⟨i, hi, rfl⟩ := List.mem_iff_getElem.mp ht
    have hj : i < tags.length := hst.length_eq.symm ▸ hi
    obtain ⟨y, hy, hk⟩ := exists_mem_tagsCompact q (List.getElem_mem hj)
    exact ⟨y, hy, tags[i], hst.get hj hi, hk⟩

end Reconnoiter
