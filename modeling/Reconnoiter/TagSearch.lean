import Reconnoiter.TagSet

/-! Tag searches, `noit_metric_tag_search.c`. The evaluator does not decode a
tag: it cuts the stored text by the stored sizes and decodes each piece on its
own terms, up to the first double quote. -/

namespace Reconnoiter

inductive SearchAst (α : Type) where
  | spec (leaf : α)
  | not (arg : SearchAst α)
  | and (args : List (SearchAst α))
  | or (args : List (SearchAst α))
  | hint (arg : SearchAst α) (hints : List (SearchAst α))

namespace SearchAst

variable {α : Type}

mutual

/-- The operators of `noit_metric_tag_search_evaluate_against_tags_multi`, which
stop at the first argument that decides; no value stands for an invalid read. -/
def evaluate (f : α → Option Bool) : SearchAst α → Option Bool
  | .spec leaf => f leaf
  | .not arg => do return !(← arg.evaluate f)
  | .and args => evaluateAnd f args
  | .or args => evaluateOr f args
  | .hint arg _ => do if ← arg.evaluate f then return true else return false

def evaluateAnd (f : α → Option Bool) : List (SearchAst α) → Option Bool
  | [] => some true
  | arg :: args => do if ← arg.evaluate f then evaluateAnd f args else return false

def evaluateOr (f : α → Option Bool) : List (SearchAst α) → Option Bool
  | [] => some false
  | arg :: args => do if ← arg.evaluate f then return true else evaluateOr f args

end

mutual

def value (g : α → Bool) : SearchAst α → Bool
  | .spec leaf => g leaf
  | .not arg => !arg.value g
  | .and args => valueAnd g args
  | .or args => valueOr g args
  | .hint arg _ => arg.value g

def valueAnd (g : α → Bool) : List (SearchAst α) → Bool
  | [] => true
  | arg :: args => arg.value g && valueAnd g args

def valueOr (g : α → Bool) : List (SearchAst α) → Bool
  | [] => false
  | arg :: args => arg.value g || valueOr g args

end

variable {f : α → Option Bool} {g : α → Bool}

mutual

theorem evaluate_eq_value (h : ∀ leaf, f leaf = some (g leaf)) :
    ∀ q : SearchAst α, q.evaluate f = some (q.value g)
  | .spec leaf => h leaf
  | .not arg => by simp [evaluate, value, evaluate_eq_value h arg]
  | .and args => evaluateAnd_eq_valueAnd h args
  | .or args => evaluateOr_eq_valueOr h args
  | .hint arg hints => by
    rw [evaluate, value, evaluate_eq_value h arg]
    cases arg.value g <;> rfl

theorem evaluateAnd_eq_valueAnd (h : ∀ leaf, f leaf = some (g leaf)) :
    ∀ args : List (SearchAst α), evaluateAnd f args = some (valueAnd g args)
  | [] => rfl
  | arg :: args => by
    rw [evaluateAnd, valueAnd, evaluate_eq_value h arg, evaluateAnd_eq_valueAnd h args]
    cases arg.value g <;> rfl

theorem evaluateOr_eq_valueOr (h : ∀ leaf, f leaf = some (g leaf)) :
    ∀ args : List (SearchAst α), evaluateOr f args = some (valueOr g args)
  | [] => rfl
  | arg :: args => by
    rw [evaluateOr, valueOr, evaluate_eq_value h arg, evaluateOr_eq_valueOr h args]
    cases arg.value g <;> rfl

end

end SearchAst

structure CString where
  bytes : Bytes
  noNul : 0 ∉ bytes
  deriving DecidableEq, Repr

abbrev MatchImpl := Option CString → Option Bytes → Bool

def varExactMatch : MatchImpl
  | some pattern, some subj => pattern.bytes == subj
  | _, _ => false

structure VarMatch where
  impl : Option MatchImpl
  str : Option CString

def VarMatch.accepts (m : VarMatch) (subj : Option Bytes) : Bool :=
  match m.impl, m.str with
  | some impl, str => impl str subj
  | none, none => true
  | none, some str => subj == some str.bytes

/-- `noit_match_str` on the memory at `subj`. The look at the first two bytes
disregards the length. With a length under two the search for the closing quote
has no bound, and without a quote it leaves the string: that is `none`. -/
def matchStr (b : Base64) (subj : Bytes) (subjLen : Int) (m : VarMatch) : Option Bool :=
  if b64Open.isPrefixOf subj then
    let start := if 2 ≤ subjLen then (subj.drop 2).take (subjLen - 2).toNat else subj.drop 2
    if 34 ∈ start then
      let decoded := b.decode (upTo 34 start)
      if decoded = some [] then some false else some (m.accepts decoded)
    else if 2 ≤ subjLen then some false else none
  else some (m.accepts (if 0 ≤ subjLen then some (subj.take subjLen.toNat) else none))

structure TagMatch where
  cat : VarMatch
  name : VarMatch

def StoredTag.memory (t : StoredTag) : Bytes := t.tag.text ++ t.rest

def matchTag (b : Base64) (m : TagMatch) (t : StoredTag) : Option Bool := do
  if t.tag.text.length ≥ t.tag.categorySize then
    if ← matchStr b t.memory (t.tag.categorySize - 1) m.cat then
      matchStr b (t.memory.drop t.tag.categorySize) (t.tag.text.length - t.tag.categorySize) m.name
    else return false
  else return false

def matchTags (b : Base64) (m : TagMatch) : List (Option StoredTag) → Option Bool
  | [] => some false
  | none :: _ => none
  | some t :: set => do if ← matchTag b m t then return true else matchTags b m set

def matchEvaluateAgainstTagsMulti (b : Base64) (m : TagMatch) :
    List (List (Option StoredTag)) → Option Bool
  | [] => some false
  | set :: sets => do
    if ← matchTags b m set then return true else matchEvaluateAgainstTagsMulti b m sets

inductive Leaf where
  | key (k : CString)
  | pair (k v : CString)
  deriving DecidableEq, Repr

def Leaf.tagMatch : Leaf → TagMatch
  | .key k => ⟨⟨some varExactMatch, some k⟩, ⟨none, none⟩⟩
  | .pair k v => ⟨⟨some varExactMatch, some k⟩, ⟨some varExactMatch, some v⟩⟩

def evaluateAgainstTags (b : Base64) (search : SearchAst Leaf) (set : List (Option StoredTag)) :
    Option Bool :=
  search.evaluate fun leaf => matchEvaluateAgainstTagsMulti b leaf.tagMatch [set]

def decodePair (b : Base64) (t : Bytes) : Option (Bytes × Bytes) :=
  (decodeTag b (t.length + 2) t).map fun d => (upTo tagSep d, after tagSep d)

def Leaf.admits : Leaf → Bytes × Bytes → Bool
  | .key k, p => k.bytes == p.1
  | .pair k v, p => k.bytes == p.1 && v.bytes == p.2

def searchMeaning (b : Base64) (search : SearchAst Leaf) (str : Bytes) : Bool :=
  search.value fun leaf => ((tagTexts str).filterMap (decodePair b)).any leaf.admits

def FoundAs (b : Base64) (part x : Bytes) : Prop :=
  b64Open <+: part → x ≠ [] ∧ b.decode (upTo 34 (part.drop 2)) = some x

def Searchable (b : Base64) (t : Bytes) : Prop :=
  KeyValue t ∧ ∃ k v, decodePair b t = some (k, v) ∧
    FoundAs b (upTo 58 t) k ∧ FoundAs b (after 58 t) v

section

variable {b : Base64}

theorem decodePair_eq_some_iff {t k v : Bytes} :
    decodePair b t = some (k, v) ↔
      decodePart b (upTo 58 t).length (upTo 58 t) = some k ∧ tagSep ∉ k ∧
        decodePart b (after 58 t).length (after 58 t) = some v := by
  have hkt := length_upTo_le 58 t
  have hvt : (upTo 58 t).length + (after 58 t).length ≤ t.length := by
    simp only [after, List.length_drop]
    omega
  unfold decodePair
  rw [Option.map_eq_some_iff]
  constructor
  · rintro ⟨d, hd, hpair⟩
    obtain ⟨k', v', hk, hsep, _, hv, rfl⟩ := decodeTag_some_iff.mp hd
    have hlen := length_decodePart_le hk
    rw [upTo_append_cons hsep, after_append_cons hsep] at hpair
    obtain ⟨rfl, rfl⟩ := Prod.mk.inj hpair
    rw [decodePart_of_length_le (by omega)] at hk hv
    exact ⟨hk, hsep, hv⟩
  · rintro ⟨hk, hsep, hv⟩
    have hlen := length_decodePart_le hk
    refine ⟨k ++ tagSep :: v, decodeTag_some_iff.mpr ⟨k, v, ?_, hsep, by omega, ?_, rfl⟩, ?_⟩
    · rw [decodePart_of_length_le (by omega), hk]
    · rw [decodePart_of_length_le (by omega), hv]
    · rw [upTo_append_cons hsep, after_append_cons hsep]

theorem compareKey_eq {st : StoredTag} {t k v : Bytes} (hst : Stores st t) (hkv : KeyValue t)
    (h : decodePair b t = some (k, v)) : st.compareKey b = k ++ tagSep :: v ∧ tagSep ∉ k := by
  obtain ⟨hm, hlen, hcat⟩ := hkv
  obtain ⟨hk, hsep, hv⟩ := decodePair_eq_some_iff.mp h
  have hsplit := congrArg List.length (eq_upTo_append_after hm)
  have hkl := length_decodePart_le hk
  simp only [List.length_append, List.length_cons, maxPairLen, maxCatLen] at hsplit hlen hcat
  have hd : decodeTag b maxPairLen t = some (k ++ tagSep :: v) := by
    refine decodeTag_some_iff.mpr ⟨k, v, ?_, hsep, ?_, ?_, rfl⟩
    · rw [decodePart_of_length_le (by simp only [maxPairLen]; omega), hk]
    · simp only [maxPairLen]
      omega
    · rw [decodePart_of_length_le (by simp only [maxPairLen]; omega), hv]
  refine ⟨?_, hsep⟩
  rw [StoredTag.compareKey, hst.1, hd, Option.getD_some]

theorem b64Open_append_iff {part follow : Bytes} (h : ∀ c ∈ follow.head?, c ≠ 98 ∧ c ≠ 34) :
    b64Open <+: part ++ follow ↔ b64Open <+: part := by
  refine ⟨fun hp => ?_, fun hp => hp.trans (List.prefix_append _ _)⟩
  match part, follow, hp with
  | [], [], hp => exact hp
  | [], c :: follow, hp =>
    have hc : c = 98 := (List.cons_prefix_cons.mp hp).1.symm
    exact absurd hc (h c rfl).1
  | [_], [], hp => exact hp
  | [_], c :: follow, hp =>
    have hc : c = 34 := (List.cons_prefix_cons.mp (List.cons_prefix_cons.mp hp).2).1.symm
    exact absurd hc (h c rfl).2
  | x :: y :: part, follow, hp =>
    obtain ⟨hx, hp⟩ := List.cons_prefix_cons.mp hp
    exact List.cons_prefix_cons.mpr ⟨hx, List.cons_prefix_cons.mpr
      ⟨(List.cons_prefix_cons.mp hp).1, List.nil_prefix⟩⟩

theorem matchStr_part {part follow x : Bytes} (m : VarMatch)
    (hx : decodePart b part.length part = some x) (hfound : FoundAs b part x)
    (hfollow : ∀ c ∈ follow.head?, c ≠ 98 ∧ c ≠ 34) :
    matchStr b (part ++ follow) part.length m = some (m.accepts (some x)) := by
  unfold matchStr
  by_cases hp : b64Open <+: part
  · obtain ⟨hne, hdec⟩ := hfound hp
    have htwo : 2 ≤ part.length := hp.length_le
    have hstart : ((part ++ follow).drop 2).take (part.length - 2) = part.drop 2 := by
      rw [List.drop_append_of_le_length htwo, List.take_left' (by simp)]
    have hquote : 34 ∈ part.drop 2 := by
      rw [decodePart, if_pos (by simpa using hp)] at hx
      split_ifs at hx with hlast hlen
      · exact absurd (Option.some.inj hx).symm hne
      · have hd : part.drop 2 ≠ [] := by
          rw [ne_eq, List.drop_eq_nil_iff]
          omega
        rw [not_not] at hlast
        have hl : (part.drop 2).getLast? = some 34 := by
          rw [List.getLast?_drop, if_neg (by omega), hlast]
        exact List.mem_of_getLast? hl
    rw [if_pos (by simpa using (b64Open_append_iff hfollow).mpr hp)]
    have hcount : ((part.length : Int) - 2).toNat = part.length - 2 := by omega
    simp only [hcount, if_pos (show (2 : Int) ≤ part.length by omega), hstart, hquote, if_true, hdec,
      Option.some.injEq, hne, if_false]
  · rw [if_neg (by simpa using fun hh => hp ((b64Open_append_iff hfollow).mp hh)),
      if_pos (by omega)]
    rw [decodePart_plain hp] at hx
    rw [Int.toNat_natCast, List.take_left, hx]

theorem matchTag_eq {st : StoredTag} {t k v : Bytes} (m : TagMatch) (hst : Stores st t)
    (hkv : KeyValue t) (h : decodePair b t = some (k, v)) (hk : FoundAs b (upTo 58 t) k)
    (hv : FoundAs b (after 58 t) v) :
    matchTag b m st = some (m.cat.accepts (some k) && m.name.accepts (some v)) := by
  obtain ⟨hdk, _, hdv⟩ := decodePair_eq_some_iff.mp h
  obtain ⟨htag, hrest⟩ := hst
  have ht := eq_upTo_append_after hkv.1
  have hlen := congrArg List.length ht
  simp only [List.length_append, List.length_cons] at hlen
  have hmem : st.memory = upTo 58 t ++ 58 :: (after 58 t ++ st.rest) := by
    rw [StoredTag.memory, htag]
    nth_rewrite 1 [ht]
    simp
  have hcat : matchStr b st.memory (st.tag.categorySize - 1) m.cat = some (m.cat.accepts (some k)) := by
    rw [hmem, htag, show (((upTo 58 t).length + 1 : Nat) : Int) - 1 = (upTo 58 t).length by omega]
    exact matchStr_part m.cat hdk hk (by simp)
  have hname : matchStr b (st.memory.drop st.tag.categorySize)
      (st.tag.text.length - st.tag.categorySize) m.name = some (m.name.accepts (some v)) := by
    have hdrop : st.memory.drop ((upTo 58 t).length + 1) = after 58 t ++ st.rest := by
      rw [hmem, List.drop_append]
      simp
    rw [htag]
    simp only
    rw [hdrop, show (t.length : Int) - ((upTo 58 t).length + 1 : Nat) = (after 58 t).length by omega]
    refine matchStr_part m.name hdv hv fun c hc => ?_
    rcases hrest with hr | ⟨r, hr⟩
    · simp [hr] at hc
    · simp only [hr, List.head?_cons, Option.mem_def, Option.some.injEq] at hc
      subst hc
      decide
  rw [matchTag, hcat, hname, if_pos (by rw [htag]; simp only; omega)]
  cases m.cat.accepts (some k) <;> rfl

theorem matchTags_eq {m : TagMatch} {g : StoredTag → Bool} {tags : List StoredTag}
    (h : ∀ t ∈ tags, matchTag b m t = some (g t)) :
    matchTags b m (tags.map some) = some (tags.any g) := by
  induction tags with
  | nil => rfl
  | cons t tags ih =>
    have hi := ih fun x hx => h x (List.mem_cons_of_mem _ hx)
    rw [List.map_cons, matchTags, h t List.mem_cons_self, hi, List.any_cons]
    cases g t <;> rfl

theorem accepts_leaf (leaf : Leaf) (k v : Bytes) :
    (leaf.tagMatch.cat.accepts (some k) && leaf.tagMatch.name.accepts (some v)) =
      leaf.admits (k, v) := by
  cases leaf with
  | key k' => simp [Leaf.tagMatch, Leaf.admits, VarMatch.accepts, varExactMatch]
  | pair k' v' => simp [Leaf.tagMatch, Leaf.admits, VarMatch.accepts, varExactMatch]

theorem matchEvaluateAgainstTagsMulti_one (m : TagMatch) (set : List (Option StoredTag)) :
    matchEvaluateAgainstTagsMulti b m [set] = matchTags b m set := by
  rw [matchEvaluateAgainstTagsMulti, matchEvaluateAgainstTagsMulti]
  rcases matchTags b m set with _ | _ | _ <;> rfl

theorem evaluateAgainstTags_of_searchable {q : QSort (StoredTag.compareKey b)} {str : Bytes}
    {set : List (Option StoredTag)} (h : tagsetInit q str = some set)
    (hs : ∀ t ∈ tagTexts str, Searchable b t) (search : SearchAst Leaf) :
    evaluateAgainstTags b search set = some (searchMeaning b search str) := by
  obtain ⟨tags, rfl, hslot, hkept⟩ := tagsetInit_keyValue h fun t ht => (hs t ht).1
  apply SearchAst.evaluate_eq_value
  intro leaf
  have hmatch : ∀ st ∈ tags, matchTag b leaf.tagMatch st =
      some ((decodePair b st.tag.text).any leaf.admits) := by
    intro st hst
    obtain ⟨t, ht, hstores⟩ := hslot st hst
    obtain ⟨hkv, k, v, hd, hk, hv⟩ := hs t ht
    rw [matchTag_eq leaf.tagMatch hstores hkv hd hk hv, accepts_leaf, hstores.1, hd, Option.any_some]
  rw [matchEvaluateAgainstTagsMulti_one, matchTags_eq hmatch, Option.some.injEq, Bool.eq_iff_iff,
    List.any_eq_true, List.any_eq_true]
  constructor
  · rintro ⟨st, hst, hany⟩
    obtain ⟨t, ht, hstores⟩ := hslot st hst
    rw [hstores.1] at hany
    obtain ⟨p, hp, hadm⟩ : ∃ p, decodePair b t = some p ∧ leaf.admits p = true := by
      simpa [Option.any_eq_true] using hany
    exact ⟨p, List.mem_filterMap.mpr ⟨t, ht, hp⟩, hadm⟩
  · rintro ⟨p, hp, hadm⟩
    obtain ⟨t, ht, hd⟩ := List.mem_filterMap.mp hp
    -- The tag itself may have been squashed, but then one that decodes alike was kept.
    obtain ⟨st, hst, st', hst', hkey⟩ := hkept t ht
    obtain ⟨u, hu, hstores⟩ := hslot st hst
    obtain ⟨hkv, k, v, hdu, _⟩ := hs u hu
    obtain ⟨hcu, hsep⟩ := compareKey_eq hstores hkv hdu
    obtain ⟨hct, hsep'⟩ := compareKey_eq hst' (hs t ht).1 hd
    obtain ⟨hkk, hvv⟩ := tagSep_append_inj hsep hsep' (by rw [← hcu, hkey, hct])
    refine ⟨st, hst, ?_⟩
    rw [hstores.1, hdu, Option.any_some, hkk, hvv]
    exact hadm

theorem matchStr_exact {subj : Bytes} {n : Int} {p : CString}
    (h : matchStr b subj n ⟨some varExactMatch, some p⟩ = some true) :
    (b64Open <+: subj ∧ p.bytes ≠ [] ∧
      34 ∈ (if 2 ≤ n then (subj.drop 2).take (n - 2).toNat else subj.drop 2) ∧
      b.decode (upTo 34 (if 2 ≤ n then (subj.drop 2).take (n - 2).toNat else subj.drop 2)) =
        some p.bytes) ∨
    (¬ b64Open <+: subj ∧ 0 ≤ n ∧ p.bytes = subj.take n.toNat) := by
  unfold matchStr at h
  by_cases hp : b64Open <+: subj
  · rw [if_pos (by simpa using hp)] at h
    simp only at h
    generalize (if 2 ≤ n then (subj.drop 2).take (n - 2).toNat else subj.drop 2) = start at h ⊢
    left
    by_cases hq : 34 ∈ start
    · rw [if_pos hq] at h
      by_cases hnil : b.decode (upTo 34 start) = some []
      · simp [hnil] at h
      rw [if_neg hnil] at h
      cases hd : b.decode (upTo 34 start) with
      | none => simp [hd, VarMatch.accepts, varExactMatch] at h
      | some x =>
        simp only [hd, VarMatch.accepts, varExactMatch, Option.some.injEq, beq_iff_eq] at h hnil
        exact ⟨hp, by rw [h]; exact hnil, hq, by rw [h]⟩
    · rw [if_neg hq] at h
      split_ifs at h
      exact absurd h (by simp)
  · right
    rw [if_neg (by simpa using hp)] at h
    split_ifs at h with hn
    · simp only [VarMatch.accepts, varExactMatch, Option.some.injEq, beq_iff_eq] at h
      exact ⟨hp, hn, h⟩
    · simp [VarMatch.accepts, varExactMatch] at h

theorem matchTag_exact {st : StoredTag} {k v : CString}
    (h : matchTag b (Leaf.pair k v).tagMatch st = some true) :
    matchStr b st.memory (st.tag.categorySize - 1) ⟨some varExactMatch, some k⟩ = some true ∧
      matchStr b (st.memory.drop st.tag.categorySize) (st.tag.text.length - st.tag.categorySize)
        ⟨some varExactMatch, some v⟩ = some true := by
  unfold matchTag at h
  split_ifs at h
  · simp only [Leaf.tagMatch] at h
    rcases hm : matchStr b st.memory (st.tag.categorySize - 1) ⟨some varExactMatch, some k⟩ with
      _ | _ | _
    · simp [hm] at h
    · simp [hm] at h
    · exact ⟨rfl, by simpa [hm] using h⟩
  · exact absurd h (by simp)

theorem matchStr_exact_nil {subj : Bytes} {p : CString} (hp : p.bytes = [])
    (h : matchStr b subj subj.length ⟨some varExactMatch, some p⟩ = some true) : subj = [] := by
  rcases matchStr_exact h with ⟨_, hne, _⟩ | ⟨_, _, he⟩
  · exact absurd hp hne
  · rw [Int.toNat_natCast, List.take_length] at he
    rw [← he, hp]

theorem foundAs_of_match {part follow : Bytes} {p : CString}
    (h : matchStr b (part ++ follow) part.length ⟨some varExactMatch, some p⟩ = some true) :
    FoundAs b part p.bytes := by
  intro hp
  have htwo : 2 ≤ part.length := hp.length_le
  have hstart : ((part ++ follow).drop 2).take ((part.length : Int) - 2).toNat = part.drop 2 := by
    rw [List.drop_append_of_le_length htwo, List.take_left' (by simp only [List.length_drop]; omega)]
  rcases matchStr_exact h with ⟨_, hne, _, hd⟩ | ⟨hn, _⟩
  · rw [if_pos (by omega), hstart] at hd
    exact ⟨hne, hd⟩
  · exact absurd (hp.trans (List.prefix_append _ _)) hn

theorem not_match_keyOnly {t : Bytes} {k : CString} (hne : t ≠ [])
    (hkey : isTaggableKey t = true) (hk : decodePart b t.length t = some k.bytes) :
    matchStr b t ((t.length : Int) - 1) ⟨some varExactMatch, some k⟩ ≠ some true := by
  intro h
  have hpos := List.length_pos_iff.mpr hne
  rcases matchStr_exact h with ⟨hp, _, hq, _⟩ | ⟨hp, _, he⟩
  · have htwo : 2 ≤ t.length := hp.length_le
    by_cases hlen : t.length = 2
    · rw [if_neg (by omega), List.drop_eq_nil_of_le (by omega)] at hq
      exact List.not_mem_nil hq
    · have hcut : (t.drop 2).take ((t.length : Int) - 1 - 2).toNat = (t.drop 2).dropLast := by
        rw [List.dropLast_eq_take, List.length_drop]
        congr 1
        omega
      rw [if_pos (by omega), hcut] at hq
      unfold isTaggableKey isTaggablePart at hkey
      rw [if_pos (by simp only [Bool.and_eq_true, decide_eq_true_eq, List.isPrefixOf_iff_prefix]
                     exact ⟨by omega, hp⟩)] at hkey
      split_ifs at hkey
      exact absurd (List.all_eq_true.mp hkey 34 hq) (by decide)
  · rw [decodePart_plain hp, Option.some.injEq] at hk
    have hl := congrArg List.length (hk.trans he)
    simp only [List.length_take] at hl
    omega

theorem searchable_of_match {q : QSort (StoredTag.compareKey b)} {t : Bytes} {k v : CString}
    {set : List (Option StoredTag)} (hne : t ≠ []) (hc : 44 ∉ t) (hinit : tagsetInit q t = some set)
    (hd : decodePair b t = some (k.bytes, v.bytes))
    (h : matchTags b (Leaf.pair k v).tagMatch set = some true) : Searchable b t := by
  obtain ⟨hlen, hkey, rfl⟩ := tagsetInit_one hne hc hinit
  obtain ⟨hdk, _, hdv⟩ := decodePair_eq_some_iff.mp hd
  rw [storedAs] at h
  generalize hsize : (if 58 ∈ t then (upTo 58 t).length + 1 else t.length) % 256 = size at h
  have htag : matchTag b (Leaf.pair k v).tagMatch ⟨⟨t, size⟩, []⟩ = some true := by
    rw [matchTags, matchTags] at h
    rcases hm : matchTag b (Leaf.pair k v).tagMatch ⟨⟨t, size⟩, []⟩ with _ | _ | _ <;>
      simp [hm] at h ⊢
  obtain ⟨hcat, hname⟩ := matchTag_exact htag
  simp only [StoredTag.memory, List.append_nil] at hcat hname
  -- A size that wrapped around to zero makes the whole text the value.
  have hzero : after 58 t = [] → size ≠ 0 := by
    rintro hnil rfl
    rw [hnil, decodePart_plain (by decide), Option.some.injEq] at hdv
    rw [List.drop_zero, Nat.cast_zero, sub_zero] at hname
    exact hne (matchStr_exact_nil hdv.symm hname)
  simp only [maxPairLen] at hlen
  by_cases hm : 58 ∈ t
  · have ht := eq_upTo_append_after hm
    have hsum := congrArg List.length ht
    simp only [List.length_append, List.length_cons] at hsum
    rw [if_pos hm] at hsize
    have hcatlen : (upTo 58 t).length ≤ maxCatLen := by
      by_contra hlong
      simp only [maxCatLen] at hlong
      exact hzero (List.length_eq_zero_iff.mp (by omega)) (by omega)
    have hs : size = (upTo 58 t).length + 1 := by
      simp only [maxCatLen] at hcatlen
      omega
    have hdrop : t.drop size = after 58 t := by rw [hs, after]
    refine ⟨⟨hm, hlen, hcatlen⟩, k.bytes, v.bytes, hd, ?_, ?_⟩
    · rw [hs, show (((upTo 58 t).length + 1 : Nat) : Int) - 1 = (upTo 58 t).length by omega] at hcat
      nth_rewrite 1 [ht] at hcat
      exact foundAs_of_match hcat
    · rw [hdrop, show (t.length : Int) - size = (after 58 t).length by omega] at hname
      exact @foundAs_of_match b (after 58 t) [] v (by rw [List.append_nil]; exact hname)
  · rw [if_neg hm] at hsize
    have hs : size = t.length := by
      have hz := hzero (after_eq_nil hm)
      omega
    rw [upTo_eq_self hm] at hkey hdk
    rw [hs] at hcat
    exact absurd hcat (not_match_keyOnly hne hkey hdk)

/-- For any set of tags that can be written alone and that decode to texts a
query can name, searching has its meaning on all strings of these tags exactly
when each of them has a colon after at most 254 bytes and the evaluator's own
decoding of its parts, up to the first quote and never to nothing, agrees. -/
theorem tag_search_meaning_iff (q : QSort (StoredTag.compareKey b)) (T : Set Bytes)
    (hT : ∀ t ∈ T, t ≠ [] ∧ 44 ∉ t ∧ (tagsetInit q t).isSome ∧
      ∃ k v : CString, decodePair b t = some (k.bytes, v.bytes)) :
    (∀ str set, tagsetInit q str = some set → (∀ t ∈ tagTexts str, t ∈ T) →
      ∀ search, evaluateAgainstTags b search set = some (searchMeaning b search str)) ↔
    ∀ t ∈ T, Searchable b t := by
  constructor
  · intro h t ht
    obtain ⟨hne, hc, hsome, k, v, hd⟩ := hT t ht
    obtain ⟨set, hset⟩ := Option.isSome_iff_exists.mp hsome
    have htexts : tagTexts t = [t] := by rw [tagTexts, if_neg hne, List.splitOn_eq_singleton hc]
    have heval := h t set hset (by simpa [htexts] using ht) (.spec (.pair k v))
    have hmeaning : searchMeaning b (.spec (.pair k v)) t = true := by
      simp [searchMeaning, SearchAst.value, htexts, hd, Leaf.admits]
    rw [hmeaning, evaluateAgainstTags, SearchAst.evaluate, matchEvaluateAgainstTagsMulti_one] at heval
    exact searchable_of_match hne hc hset hd heval
  · intro h str set hset htags search
    exact evaluateAgainstTags_of_searchable hset (fun t ht => h t (htags t ht)) search

end

/-- The search and(a,foo:b) finds a plain tag and one whose key is in base64. -/
theorem tag_search_meaning_two_tags :
    (tagsetInit (insertionQSort (StoredTag.compareKey standardBase64))
      [97, 58, 98, 44, 98, 34, 90, 109, 57, 118, 34, 58, 98]).bind
        (evaluateAgainstTags standardBase64 (.and [.spec (.key ⟨[97], by decide⟩),
          .spec (.pair ⟨[102, 111, 111], by decide⟩ ⟨[98], by decide⟩)])) = some true := by
  have hall := (tag_search_meaning_iff (insertionQSort (StoredTag.compareKey standardBase64))
    {[97, 58, 98], [98, 34, 90, 109, 57, 118, 34, 58, 98]} ?_).mpr ?_
  · obtain ⟨set, hset⟩ : ∃ set, tagsetInit (insertionQSort (StoredTag.compareKey standardBase64))
        [97, 58, 98, 44, 98, 34, 90, 109, 57, 118, 34, 58, 98] = some set :=
      Option.isSome_iff_exists.mp (by decide +kernel)
    rw [hset, Option.bind_some, hall _ set hset (by decide +kernel)]
    decide +kernel
  · rintro t (rfl | rfl)
    · exact ⟨by decide, by decide, by decide +kernel, ⟨[97], by decide⟩, ⟨[98], by decide⟩, by decide +kernel⟩
    · exact ⟨by decide, by decide, by decide +kernel, ⟨[102, 111, 111], by decide⟩,
        ⟨[98], by decide⟩, by decide +kernel⟩
  · rintro t (rfl | rfl)
    · exact ⟨by decide, [97], [98], by decide +kernel, fun h => absurd h (by decide),
        fun h => absurd h (by decide)⟩
    · exact ⟨by decide, [102, 111, 111], [98], by decide +kernel, fun _ => ⟨by decide, by decide +kernel⟩,
        fun h => absurd h (by decide)⟩

theorem tag_search_meaning_fails :
    ∃ foo a : CString, foo.bytes = [102, 111, 111] ∧ a.bytes = [97] ∧
      ((tagsetInit (insertionQSort (StoredTag.compareKey standardBase64)) [102, 111, 111]).bind
          (evaluateAgainstTags standardBase64 (.spec (.key foo))) = some false ∧
        searchMeaning standardBase64 (.spec (.key foo)) [102, 111, 111] = true) ∧
      (tagsetInit (insertionQSort (StoredTag.compareKey standardBase64)) [97, 58, 98, 34, 34]).bind
          (evaluateAgainstTags standardBase64 (.spec (.key a))) = some false ∧
        searchMeaning standardBase64 (.spec (.key a)) [97, 58, 98, 34, 34] = true := by
  refine ⟨⟨[102, 111, 111], by decide⟩, ⟨[97], by decide⟩, rfl, rfl, ⟨?_, ?_⟩, ?_, ?_⟩ <;>
    decide +kernel

end Reconnoiter
