import Reconnoiter.FiltersetMetric

/-! Measurement tags that rules add, and what the rules behind them see of these. -/

namespace Reconnoiter

variable {Re Ast : Type}

section Visits

variable (env : FilterEnv Re Ast) (c : FilterCall)

def visits : Nat → List (FilterRule Re Ast) → FilterState → List (FilterRule Re Ast × FilterState)
  | _, [], _ => []
  | i, r :: rs, st =>
    if st.skiptoRule.any (· ≠ i) then visits (i + 1) rs st
    else
      (r, { st with skiptoRule := none }) ::
        match applyRule env c r { st with skiptoRule := none } with
        | (_, .stop _) => []
        | (_, .next st) => visits (i + 1) rs st

def FilterRule.Fires (r : FilterRule Re Ast) (st : FilterState) : Prop :=
  (∀ f, r.need env c st.mtset f = false) ∨
    ∀ f, ((r.flush c.now).matcher f).checkAdd (r.need env c st.mtset f) = true

variable {env c} {r : FilterRule Re Ast} {st st' : FilterState}

theorem addMeasurementTag_grows (metric : FilterMetric) (r : FilterRule Re Ast) (st : FilterState) :
    st.mtset <+: (addMeasurementTag env metric r st).mtset := by
  unfold addMeasurementTag
  cases r.tagCat with
  | none => exact List.prefix_rfl
  | some cat =>
    dsimp only
    split_ifs
    · exact List.prefix_rfl
    · exact List.prefix_rfl
    · exact List.prefix_append _ _

theorem taken_grows {metric : FilterMetric} (h : r.taken env metric st = .next st') :
    st.mtset <+: st'.mtset := by
  unfold FilterRule.taken at h
  cases htype : r.type with
  | accept => simp [htype] at h
  | deny => simp [htype] at h
  | skipto =>
    simp only [htype, RuleResult.next.injEq] at h
    rw [← h]
  | addMeasurementTag =>
    simp only [htype, RuleResult.next.injEq] at h
    rw [← h]
    exact addMeasurementTag_grows metric r st

theorem flush_taken (now : TimeVal) (metric : FilterMetric) (r : FilterRule Re Ast) (st : FilterState) :
    (r.flush now).taken env metric st = r.taken env metric st := by
  unfold FilterRule.flush
  split_ifs <;> rfl

theorem applyRule_state (env : FilterEnv Re Ast) (c : FilterCall) (r : FilterRule Re Ast) (st : FilterState) :
    (r.Fires env c st ∧ (applyRule env c r st).2 = r.taken env c.metric st) ∨
      (¬ r.Fires env c st ∧ (applyRule env c r st).2 = .next st) := by
  unfold applyRule
  dsimp only
  by_cases hneed : ∀ f, r.need env c st.mtset f = false
  · rw [if_pos hneed]
    exact Or.inl ⟨Or.inl hneed, rfl⟩
  · rw [if_neg hneed]
    by_cases hadd : ∀ f, ((r.flush c.now).matcher f).checkAdd (r.need env c st.mtset f) = true
    · rw [if_pos hadd, flush_taken]
      refine Or.inl ⟨Or.inr hadd, ?_⟩
      cases r.taken env c.metric st <;> rfl
    · rw [if_neg hadd]
      exact Or.inr ⟨fun h => h.elim hneed hadd, rfl⟩

theorem applyRule_grows (h : (applyRule env c r st).2 = .next st') : st.mtset <+: st'.mtset := by
  rcases applyRule_state env c r st with ⟨-, he⟩ | ⟨-, he⟩
  · exact taken_grows (he.symm.trans h)
  · obtain rfl := RuleResult.next.inj (he.symm.trans h)
    exact List.prefix_rfl

theorem visits_grow {rs : List (FilterRule Re Ast)} {i : Nat} {p : FilterRule Re Ast × FilterState}
    (h : p ∈ visits env c i rs st) : st.mtset <+: p.2.mtset := by
  induction rs generalizing i st with
  | nil => simp [visits] at h
  | cons r rs ih =>
    rw [visits] at h
    split_ifs at h with hskip
    · exact ih h
    · rcases List.mem_cons.mp h with rfl | h
      · exact List.prefix_rfl
      · cases hrule : applyRule env c r { st with skiptoRule := none } with
        | mk r' result =>
          cases result with
          | stop ret => simp [hrule] at h
          | next st' =>
            rw [hrule] at h
            exact (applyRule_grows (congrArg Prod.snd hrule)).trans (ih h)

end Visits

def exactSearch (k v : CString) : SearchAst TagMatch := .and [.spec (Leaf.pair k v).tagMatch]

def addedTag (k : CString) (text : Bytes) : FilterTag := ⟨text, text.length, k.bytes.length - 1⟩

def TagPresent (set : List FilterTag) (text : Bytes) : Prop :=
  ∃ t ∈ set, t.totalSize = text.length ∧ t.text.take text.length = text

section Search

variable {l : FilterLibs Re} {k v : CString} {set more : List FilterTag}

def FilterLibs.matches (l : FilterLibs Re) (k v : CString) (set : List FilterTag) : Option Bool :=
  matchTags l.b64 (Leaf.pair k v).tagMatch (set.map fun t => some t.stored)

theorem evaluate_exactSearch (l : FilterLibs Re) (k v : CString) (set : List FilterTag) :
    l.evaluate (exactSearch k v) set = l.matches k v set := by
  rw [FilterLibs.evaluate, exactSearch, SearchAst.evaluate, SearchAst.evaluateAnd, SearchAst.evaluate]
  simp only [matchEvaluateAgainstTagsMulti, SearchAst.evaluateAnd, FilterLibs.matches]
  generalize matchTags l.b64 (Leaf.pair k v).tagMatch (set.map fun t => some t.stored) = found
  rcases found with _ | _ | _ <;> rfl

theorem matches_append (l : FilterLibs Re) (k v : CString) (set more : List FilterTag) :
    l.matches k v (set ++ more) = (l.matches k v set).bind fun found => if found then some true
      else l.matches k v more := by
  unfold FilterLibs.matches
  induction set with
  | nil => rfl
  | cons t set ih =>
    rw [List.cons_append, List.map_cons, List.map_cons, matchTags, matchTags, ih]
    rcases matchTag l.b64 (Leaf.pair k v).tagMatch t.stored with _ | _ | _ <;> rfl

theorem matches_one (l : FilterLibs Re) (k v : CString) (t : FilterTag) :
    l.matches k v [t] = matchTag l.b64 (Leaf.pair k v).tagMatch t.stored := by
  simp only [FilterLibs.matches, List.map_cons, List.map_nil, matchTags]
  rcases matchTag l.b64 (Leaf.pair k v).tagMatch t.stored with _ | _ | _ <;> rfl

theorem matches_grown (hset : l.matches k v set = some true) (h : set <+: more) :
    l.matches k v more = some true := by
  obtain ⟨rest, rfl⟩ := h
  rw [matches_append, hset]
  rfl

theorem evaluateAgainstTags_iff :
    l.env.evaluateAgainstTags (exactSearch k v) set = true ↔ l.matches k v set = some true := by
  simp only [FilterLibs.env, evaluate_exactSearch]
  rcases l.matches k v set with _ | _ | _ <;> simp

end Search

section Added

variable {b : Base64} {k v : CString} {text : Bytes}

theorem length_le_encodePart (b : Base64) (tf : UInt8 → Bool) (part : Bytes) :
    part.length ≤ (encodePart b tf part).length := by
  rw [length_encodePart, partLen]
  split_ifs <;> omega

theorem addedTag_memory (k : CString) (text : Bytes) :
    (addedTag k text).stored = ⟨⟨text, k.bytes.length - 1⟩, [0]⟩ := by
  simp [addedTag, FilterTag.stored]

theorem quote_not_mem_encode (b : Base64) (x : Bytes) : 34 ∉ b.encode x := by
  intro h
  exact absurd (b.encode_chars x 34 h) (by decide)

theorem matchStr_encoded {x : Bytes} {n : Int} (m : VarMatch) (hx : x ≠ []) (rest : Bytes)
    (hn : n < 2 ∨ ((b.encode x).length : Int) + 3 ≤ n) :
    matchStr b (98 :: 34 :: (b.encode x ++ 34 :: rest)) n m = some (m.accepts (some x)) := by
  have hopen : b64Open.isPrefixOf (98 :: 34 :: (b.encode x ++ 34 :: rest)) = true := by
    simp [b64Open, List.isPrefixOf]
  obtain ⟨r, hr⟩ : ∃ r, (if 2 ≤ n then (b.encode x ++ 34 :: rest).take (n - 2).toNat
    else b.encode x ++ 34 :: rest) =
      b.encode x ++ 34 :: r := by
    rcases hn with hn | hn
    · exact ⟨rest, if_neg (by omega)⟩
    · refine ⟨rest.take ((n - 2).toNat - ((b.encode x).length + 1)), ?_⟩
      rw [if_pos (by omega), List.take_append, List.take_of_length_le (by omega)]
      obtain ⟨m, hm⟩ : ∃ m, (n - 2).toNat - (b.encode x).length = m + 1 :=
        ⟨(n - 2).toNat - (b.encode x).length - 1, by omega⟩
      rw [hm, List.take_succ_cons, show (n - 2).toNat - ((b.encode x).length + 1) = m by omega]
  rw [matchStr, if_pos hopen]
  simp only [List.drop_succ_cons, List.drop_zero, hr]
  rw [if_pos (by simp), upTo_append_cons (quote_not_mem_encode b x), b.decode_encode,
    if_neg (by simpa using hx)]

theorem addedTag_second (hlen : 2 ≤ k.bytes.length) (s : Bytes) :
    (encodePart b isTaggableKeyChar k.bytes ++ 58 :: s)[k.bytes.length]? ≠ some 34 := by
  rw [encodePart]
  split_ifs with hall
  · simp
  · have henc := b.length_encode k.bytes
    obtain ⟨n, hn⟩ : ∃ n, k.bytes.length = n + 2 := ⟨k.bytes.length - 2, by omega⟩
    have hlt : n < (b.encode k.bytes).length := by omega
    intro h
    simp only [hn, List.cons_append, List.append_assoc, List.getElem?_cons_succ] at h
    rw [List.getElem?_append_left hlt] at h
    exact quote_not_mem_encode b _ (List.mem_of_getElem? h)

theorem CString.ext_bytes {s t : CString} (h : s.bytes = t.bytes) : s = t := by
  cases s
  cases t
  cases h
  rfl

theorem second_of_b64Open {s : Bytes} (h : b64Open <+: s) : s[1]? = some 34 := by
  obtain ⟨t, rfl⟩ := h
  rfl

theorem matchTag_addedTag_iff (hk : k.bytes ≠ [])
    (htext : text = encodePart b isTaggableKeyChar k.bytes ++
      58 :: encodePart b isTaggableValueChar v.bytes) :
    matchTag b (Leaf.pair k v).tagMatch (addedTag k text).stored = some true ↔
      v = k ∧ k.bytes.length = 1 ∧ k.bytes.all isTaggableKeyChar = false := by
  have hpos := List.length_pos_iff.mpr hk
  have hkey := length_le_encodePart b isTaggableKeyChar k.bytes
  have hvalue := length_le_encodePart b isTaggableValueChar v.bytes
  have hlen : text.length = (encodePart b isTaggableKeyChar k.bytes).length + 1 +
      (encodePart b isTaggableValueChar v.bytes).length := by
    simp [htext]
    omega
  -- The text of a category in base64, and what an exact match makes of it.
  have hread : k.bytes.all isTaggableKeyChar = false → ∀ (n : Int) (p : CString), n < 2 ∨ text.length ≤ n →
      matchStr b (text ++ [0]) n ⟨some varExactMatch, some p⟩ = some (p.bytes == k.bytes) := by
    intro hall n p hn
    have hpart : encodePart b isTaggableKeyChar k.bytes = 98 :: 34 :: (b.encode k.bytes ++ [34]) := by
      rw [encodePart, if_neg (by simp [hall])]
    have hmemory : text ++ [0] = 98 :: 34 :: (b.encode k.bytes ++
        34 :: 58 :: (encodePart b isTaggableValueChar v.bytes ++ [0])) := by
      simp [htext, hpart]
    rw [hpart] at hlen
    simp only [List.length_cons, List.length_append, List.length_nil] at hlen
    rw [hmemory, matchStr_encoded _ hk _ (hn.imp_right fun h => by omega)]
    rfl
  rw [addedTag_memory]
  constructor
  · intro h
    have hmatch := (matchTag_exact h).2
    simp only [StoredTag.memory] at hmatch
    rcases matchStr_exact hmatch with ⟨hopen, -, -, hdecode⟩ | ⟨-, -, heq⟩
    · have hone : k.bytes.length = 1 := by
        by_contra hne
        have hsecond := second_of_b64Open hopen
        rw [List.getElem?_drop, show k.bytes.length - 1 + 1 = k.bytes.length by omega,
          htext, List.append_assoc,
          List.cons_append] at hsecond
        exact addedTag_second (by omega) _ hsecond
      rw [hone] at hopen hmatch
      have hall : k.bytes.all isTaggableKeyChar = false := by
        by_contra hplain
        rw [Bool.not_eq_false] at hplain
        obtain ⟨x, hx⟩ := List.length_eq_one_iff.mp hone
        have hsecond := second_of_b64Open hopen
        rw [htext, encodePart, if_pos hplain, hx] at hsecond
        simp at hsecond
      have hsame := hread hall text.length v (Or.inr le_rfl)
      simp only [Nat.sub_self, List.drop_zero, Nat.cast_zero, sub_zero] at hmatch
      rw [hmatch, Option.some.injEq, eq_comm, beq_iff_eq] at hsame
      exact ⟨CString.ext_bytes hsame, hone, hall⟩
    · have heq' := congrArg List.length heq
      rw [List.length_take, List.length_drop, List.length_append] at heq'
      simp only [List.length_cons, List.length_nil] at heq'
      omega
  · rintro ⟨rfl, hone, hall⟩
    have hcat := hread hall (-1) v (Or.inl (by decide))
    have hname := hread hall text.length v (Or.inr le_rfl)
    rw [beq_self_eq_true] at hcat hname
    rw [matchTag, if_pos (by simp [hone])]
    simp only [StoredTag.memory, Leaf.tagMatch, hone, Nat.sub_self, List.drop_zero,
      Nat.cast_zero, sub_zero, zero_sub,
      hcat, hname]
    rfl

end Added

section Fired

variable {l : FilterLibs Re} {c : FilterCall} {r : FilterRule Re (SearchAst TagMatch)} {st : FilterState}
  {k v : CString} {text : Bytes}

theorem addMeasurementTag_mtset (metric : FilterMetric) (hcat : r.tagCat = some k.bytes)
    (hval : r.tagVal.getD [] = v.bytes) (hcount : st.mtset.length < maxTags)
    (hpair : (k.bytes ++ tagSep :: v.bytes).length ≤ maxPairLen)
    (hfit : encodeTag l.b64 (maxPairLen + 1) (k.bytes ++ tagSep :: v.bytes) = .ok text) :
    (TagPresent st.mtset text → (addMeasurementTag l.env metric r st).mtset = st.mtset) ∧
      (¬ TagPresent st.mtset text →
        (addMeasurementTag l.env metric r st).mtset = st.mtset ++ [addedTag k text]) := by
  have hencode : l.env.encodeTag ((k.bytes ++ tagSep :: v.bytes).take maxPairLen) = (text.length, text) := by
    rw [List.take_of_length_le hpair]
    simp only [FilterLibs.env, hfit]
  have hany : (st.mtset.any fun t =>
    decide (t.totalSize = text.length ∧ t.text.take text.length = text.take text.length)) =
      true ↔ TagPresent st.mtset text := by
    simp [TagPresent]
  unfold addMeasurementTag
  simp only [hcat, hval, hencode]
  rw [if_neg (by omega)]
  constructor
  · intro h
    rw [if_pos (hany.mpr h)]
  · intro h
    rw [if_neg (fun hp => h (hany.mp hp))]
    rfl

theorem addMeasurementTag_skipto (env : FilterEnv Re Ast) (metric : FilterMetric) (r : FilterRule Re Ast)
    (st : FilterState) : (addMeasurementTag env metric r st).skiptoRule = st.skiptoRule := by
  unfold addMeasurementTag
  cases r.tagCat with
  | none => rfl
  | some cat =>
    dsimp only
    split_ifs <;> rfl

theorem visits_fired {i : Nat} {rs : List (FilterRule Re (SearchAst TagMatch))}
    (htype : r.type = .addMeasurementTag) (hskip : st.skiptoRule = none) (hfires : r.Fires l.env c st) :
    visits l.env c i (r :: rs) st = (r, st) :: visits l.env c (i + 1) rs
      (addMeasurementTag l.env c.metric r st) := by
  have hst : { st with skiptoRule := none } = st := by
    cases st
    cases hskip
    rfl
  have hrule : (applyRule l.env c r st).2 = .next (addMeasurementTag l.env c.metric r st) := by
    rcases applyRule_state l.env c r st with ⟨-, h⟩ | ⟨hnot, -⟩
    · rw [h, FilterRule.taken, htype]
    · exact absurd hfires hnot
  rw [visits, if_neg (by simp [hskip]), hst]
  cases hres : applyRule l.env c r st with
  | mk r' result =>
    rw [hres] at hrule
    dsimp only at hrule
    subst hrule
    rfl

def SeenAnyway (l : FilterLibs Re) (k v : CString) (text : Bytes) (set : List FilterTag) : Prop :=
  l.matches k v set = some true ∨
    (l.matches k v set = some false ∧ ¬ TagPresent set text ∧
      v = k ∧ k.bytes.length = 1 ∧ k.bytes.all isTaggableKeyChar = false)

/-- Every later rule that searches for the tag of a rule that fired finds it, whatever the later
rules are, if and only if it was there before or is such an odd one. -/
theorem added_tag_visible_iff (l : FilterLibs Re) (c : FilterCall) {r : FilterRule Re (SearchAst TagMatch)}
    {st : FilterState} {k v : CString} {text : Bytes} (htype : r.type = .addMeasurementTag)
    (hcat : r.tagCat = some k.bytes) (hval : r.tagVal.getD [] = v.bytes) (hsep : tagSep ∉ k.bytes)
    (hskip : st.skiptoRule = none) (hfires : r.Fires l.env c st) (hcount : st.mtset.length < maxTags)
    (hpair : (k.bytes ++ tagSep :: v.bytes).length ≤ maxPairLen)
    (hfit : encodeTag l.b64 maxPairLen (k.bytes ++ tagSep :: v.bytes) = .ok text) (i : Nat) :
    (∀ rs later, visits l.env c i (r :: rs) st = (r, st) :: later → ∀ p ∈ later,
        p.1.mtsearch = some (exactSearch k v) →
        l.env.evaluateAgainstTags (exactSearch k v) p.2.mtset = true) ↔
      SeenAnyway l k v text st.mtset := by
  obtain ⟨-, hk, htext, hlen⟩ := (encodeTag_eq_ok_iff hsep).mp hfit
  have hfit' : encodeTag l.b64 (maxPairLen + 1) (k.bytes ++ tagSep :: v.bytes) = .ok text :=
    (encodeTag_eq_ok_iff hsep).mpr ⟨le_rfl, hk, htext, hlen.trans (Nat.le_succ _)⟩
  obtain ⟨hthere, hnew⟩ := addMeasurementTag_mtset c.metric hcat hval hcount hpair hfit'
  have hadded := matchTag_addedTag_iff (b := l.b64) (v := v) hk htext
  -- What the next rule sees decides for all the later ones.
  have hnext : l.matches k v (addMeasurementTag l.env c.metric r st).mtset = some true ↔
      SeenAnyway l k v text st.mtset := by
    by_cases hp : TagPresent st.mtset text
    · rw [hthere hp]
      exact ⟨Or.inl, fun h => h.elim id fun hodd => absurd hp hodd.2.1⟩
    · rw [hnew hp, matches_append, matches_one, SeenAnyway, ← hadded]
      rcases l.matches k v st.mtset with _ | _ | _ <;> simp [hp]
  rw [← hnext]
  constructor
  · intro h
    let searcher : FilterRule Re (SearchAst TagMatch) := { r with mtsearch := some (exactSearch k v) }
    refine evaluateAgainstTags_iff.mp (h [searcher] _ (visits_fired htype hskip hfires)
      (searcher, { addMeasurementTag l.env c.metric r st with skiptoRule := none }) ?_ rfl)
    rw [visits, if_neg (by rw [addMeasurementTag_skipto, hskip]; simp)]
    exact List.mem_cons_self
  · intro h rs later hvisits p hp _
    rw [visits_fired htype hskip hfires, List.cons.injEq] at hvisits
    rw [← hvisits.2] at hp
    exact evaluateAgainstTags_iff.mpr (matches_grown h (visits_grow hp))

end Fired

def plainRule (type : RuleType) : FilterRule Unit (SearchAst TagMatch) where
  ruleid := none
  skipto := none
  skiptoRule := none
  tagCat := none
  tagVal := none
  type := type
  matcher _ := .blank
  stsearch := none
  mtsearch := none
  lastFlush := .zero
  flushInterval := .zero

def plainCall : FilterCall := ⟨⟨[], [], []⟩, ⟨[109], none⟩, .zero, 1, []⟩

def plainState : FilterState := ⟨none, [], none, false⟩

/-- The byte `*`. -/
def starText : CString := ⟨[42], by decide⟩

def starRule : FilterRule Unit (SearchAst TagMatch) :=
  { plainRule .addMeasurementTag with tagCat := some starText.bytes, tagVal := some starText.bytes }

theorem added_tag_visible_star :
    encodeTag plainLibs.b64 maxPairLen (starText.bytes ++ tagSep :: starText.bytes) =
      .ok [98, 34, 75, 103, 61, 61, 34, 58, 98, 34, 75, 103, 61, 61, 34] ∧
    ∀ rs later, visits plainLibs.env plainCall 0 (starRule :: rs) plainState =
      (starRule, plainState) :: later →
      ∀ p ∈ later, p.1.mtsearch = some (exactSearch starText starText) →
      plainLibs.env.evaluateAgainstTags (exactSearch starText starText) p.2.mtset = true := by
  refine ⟨rfl, ?_⟩
  refine (added_tag_visible_iff plainLibs plainCall rfl rfl rfl (by decide) rfl
    (Or.inl (by decide)) (by decide)
    (by decide) rfl 0).mpr (Or.inr ⟨rfl, ?_, rfl, rfl, by decide⟩)
  simp [TagPresent, plainState]

/-- The bytes `env`. -/
def envText : CString := ⟨[101, 110, 118], by decide⟩

/-- The bytes `prod`. -/
def prodText : CString := ⟨[112, 114, 111, 100], by decide⟩

def prodRule : FilterRule Unit (SearchAst TagMatch) :=
  { plainRule .addMeasurementTag with tagCat := some envText.bytes, tagVal := some prodText.bytes }

def prodSearcher : FilterRule Unit (SearchAst TagMatch) :=
  { plainRule .accept with mtsearch := some (exactSearch envText prodText) }

theorem added_tag_not_visible :
    (visits plainLibs.env plainCall 0 [prodRule, prodSearcher] plainState).map (fun p => p.2.mtset) =
      [[], [⟨[101, 110, 118, 58, 112, 114, 111, 100], 8, 2⟩]] ∧
    plainLibs.env.evaluateAgainstTags (exactSearch envText prodText)
      [⟨[101, 110, 118, 58, 112, 114, 111, 100], 8, 2⟩] = false ∧
    (applyFilterset plainLibs.env [prodRule, prodSearcher] ⟨⟨[], [], []⟩, ⟨[109], none⟩, .zero⟩).2.1 =
      false := by
  refine ⟨?_, ?_, ?_⟩ <;> decide +kernel

end Reconnoiter
