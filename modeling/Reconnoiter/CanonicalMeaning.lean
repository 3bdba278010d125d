import Reconnoiter.CanonicalIdempotent
import Reconnoiter.TagSet

/-! What a metric name means: its base name and the decoded tags of its blocks.
The tags of a name are delimited here by its blocks and commas alone, with no
limit on their number. -/

namespace Reconnoiter

def lastBlock (opening closing name : Bytes) : Option (Bytes × Bytes) :=
  if name.length < closing.length + opening.length then none
  else if name.drop (name.length - closing.length) ≠ closing then none
  else
    (blockStart opening closing.length name).map fun start =>
      (name.take start, (name.drop (start + opening.length)).take
        (name.length - (start + opening.length) - closing.length))

structure TaggedName where
  base : Bytes
  stream : List Bytes
  measurement : List Bytes
  deriving DecidableEq, Repr

def readBlocks : Nat → Bytes → TaggedName
  | 0, name => ⟨name, [], []⟩
  | fuel + 1, name =>
    match lastBlock stOpen stClose name with
    | some (rest, content) =>
      let r := readBlocks fuel rest
      ⟨r.base, tagTexts content ++ r.stream, r.measurement⟩
    | none =>
      match lastBlock mtOpen mtClose name with
      | some (rest, content) =>
        let r := readBlocks fuel rest
        ⟨r.base, r.stream, tagTexts content ++ r.measurement⟩
      | none => ⟨name, [], []⟩

def taggedName (name : Bytes) : TaggedName := readBlocks name.length name

def decodedTag (b : Base64) (t : Bytes) : Option Bytes := decodeTag b (t.length + 2) t

def decodedTags (b : Base64) (texts : List Bytes) : List Bytes := texts.filterMap (decodedTag b)

/-- Two names with one cleaned base name and the same decoded tags. -/
structure SameMeaning (b : Base64) (s₁ s₂ : Bytes) : Prop where
  base : cleanName (taggedName s₁).base = cleanName (taggedName s₂).base
  stream : ∀ d, d ∈ decodedTags b (taggedName s₁).stream ↔ d ∈ decodedTags b (taggedName s₂).stream
  measurement : ∀ d, d ∈ decodedTags b (taggedName s₁).measurement ↔
    d ∈ decodedTags b (taggedName s₂).measurement

def NoLongTag (s : Bytes) : Prop :=
  ∀ t ∈ (taggedName s).stream ++ (taggedName s).measurement, t.length ≤ maxPairLen

instance (s : Bytes) : Decidable (NoLongTag s) := inferInstanceAs (Decidable (∀ t ∈ _, _))

def ListsAll (b : Base64) (texts out : List Bytes) : Prop :=
  ∃ l : List Bytes, l.Pairwise (· < ·) ∧ (∀ d, d ∈ l ↔ d ∈ decodedTags b texts) ∧
    List.Forall₂ (fun d text => encodeTag b maxPairLen d = .ok text) l out

def Complete (b : Base64) (s c : Bytes) : Prop :=
  ListsAll b (taggedName s).stream (taggedName c).stream ∧
    ListsAll b (taggedName s).measurement (taggedName c).measurement

def Covered (b : Base64) (texts : List Bytes) : Prop :=
  ∀ d ∈ decodedTags b texts, d ∈ decodedTags b (texts.take maxTags)

def WithinLimit (b : Base64) (s : Bytes) : Prop :=
  Covered b (taggedName s).stream ∧ Covered b (taggedName s).measurement

/-- The moves in the two arrays of tags, each of which holds `maxTags`. -/
def canonicalMoves (b : Base64) (q : QSort (id : Bytes → Bytes)) (sha1Hex : Bytes → Bytes) (input : Bytes) :
    List (Nat × Nat) :=
  match eatName b sha1Hex input with
  | .error _ => []
  | .ok e => squashMoves id 0 (q.run (decodeTags b e.stags)) ++
      squashMoves id 0 (q.run (decodeTags b e.mtags))

def WritesInside (b : Base64) (q : QSort (id : Bytes → Bytes)) (sha1Hex : Bytes → Bytes)
    (input : Bytes) : Prop :=
  ∀ m ∈ canonicalMoves b q sha1Hex input, m.1 + m.2 ≤ maxTags

def Movable (b : Base64) (texts : List Bytes) : Prop :=
  texts.length < maxTags ∨ (decodedTags b (texts.take maxTags)).Nodup

def NotFull (b : Base64) (s : Bytes) : Prop :=
  Movable b (taggedName s).stream ∧ Movable b (taggedName s).measurement

theorem take_take_append {α : Type*} (n : Nat) (l m : List α) :
    (l.take n ++ m).take n = (l ++ m).take n := by
  rcases Nat.le_total l.length n with h | h
  · rw [List.take_of_length_le h]
  · rw [List.take_append_of_le_length h, List.take_append_of_le_length (by simp [h]), List.take_take,
      Nat.min_self]

section

variable {b : Base64} {sha1Hex : Bytes → Bytes}

theorem eatUpTags_eq (max : Nat) (input : Bytes) (st : TagScan) (opening closing : Bytes) :
    eatUpTags b sha1Hex max input st opening closing =
      match lastBlock opening closing input with
      | none => .ok (none, st)
      | some (rest, content) =>
        match buildTags b sha1Hex max content st with
        | .error e => .error e
        | .ok (true, st) => .ok (some rest, st)
        | .ok (false, st) => .ok (none, st) := by
  unfold eatUpTags lastBlock
  split_ifs
  · rfl
  · rfl
  · cases blockStart opening closing.length input with
    | none => rfl
    | some start => rfl

theorem infix_of_blockStart {opening input : Bytes} {slen i : Nat}
    (h : blockStart opening slen input = some i) : opening <:+: input := by
  by_contra hn
  rw [blockStart_none hn] at h
  exact absurd h (by simp)

theorem lastBlock_cases {opening closing name rest content : Bytes}
    (h : lastBlock opening closing name = some (rest, content)) :
    opening <:+: name ∧ name.drop (name.length - closing.length) = closing := by
  unfold lastBlock at h
  split_ifs at h with hlen hcl
  obtain ⟨start, hs, _⟩ := Option.map_eq_some_iff.mp h
  exact ⟨infix_of_blockStart hs, not_not.mp hcl⟩

theorem take_texts_nil {max : Nat} {tags : List Tag} (h : tags.length ≤ max) :
    (tags ++ (tagTexts []).map storedAs).take max = tags := by
  simp [tagTexts, List.take_of_length_le h]

theorem buildTagsLoop_pieces {max fuel bigtag : Nat} {input : Bytes} {st st' : TagScan}
    (hfuel : input.length ≤ fuel) (hlong : ∀ t ∈ tagTexts input, t.length ≤ maxPairLen)
    (hst : st.tags.length ≤ max)
    (h : buildTagsLoop b sha1Hex max fuel input bigtag st = .ok (true, st')) :
    st'.tags = (st.tags ++ (tagTexts input).map storedAs).take max ∧ st'.repl = st.repl := by
  induction fuel generalizing input bigtag st with
  | zero =>
    obtain rfl := List.length_eq_zero_iff.mp (Nat.le_zero.mp hfuel)
    obtain ⟨_, rfl⟩ := Prod.mk.inj (Except.ok.inj h)
    exact ⟨(take_texts_nil hst).symm, rfl⟩
  | succ fuel ih =>
    rw [buildTagsLoop] at h
    split_ifs at h with hstop
    · obtain ⟨_, rfl⟩ := Prod.mk.inj (Except.ok.inj h)
      refine ⟨?_, rfl⟩
      rcases hstop with hz | hfull
      · obtain rfl := List.length_eq_zero_iff.mp hz
        exact (take_texts_nil hst).symm
      · rw [List.take_append_of_le_length hfull, List.take_of_length_le hst]
    rw [not_or, List.length_eq_zero_iff] at hstop
    cases hp : parseOne input with
    | none => simp [hp] at h
    | some r =>
      -- The first tag, and the comma with what follows it.
      obtain ⟨t, rest, rfl, ht, hrest⟩ : ∃ t rest, input = t ++ rest ∧ 44 ∉ t ∧
          (rest = [] ∨ ∃ r, rest = 44 :: r) := by
        by_cases hc : 44 ∈ input
        · obtain ⟨t, r, rfl, ht⟩ := List.eq_append_cons_of_mem hc
          exact ⟨t, _, rfl, ht, Or.inr ⟨r, rfl⟩⟩
        · exact ⟨input, [], by simp, hc, Or.inl rfl⟩
      obtain ⟨hne, hsize, _, hr⟩ := parseOne_piece ht hrest hp
      have htexts : ∃ more, tagTexts (t ++ rest) = t :: more ∧
          ∀ r, rest = 44 :: r → r ≠ [] → more = tagTexts r := by
        rw [tagTexts, if_neg hstop.1]
        rcases hrest with rfl | ⟨r, rfl⟩
        · exact ⟨[], by rw [List.append_nil, List.splitOn_eq_singleton ht], by simp⟩
        · refine ⟨_, List.splitOn_append_cons_self_of_not_mem ht r, ?_⟩
          rintro _ ⟨rfl⟩ hrne
          rw [tagTexts, if_neg hrne]
      obtain ⟨more, htexts, hmore⟩ := htexts
      rw [htexts] at hlong ⊢
      rw [if_neg (Nat.not_lt.mpr (hlong t List.mem_cons_self))] at hr
      have htake : takeTag b sha1Hex (t ++ rest) r bigtag st =
          .ok (⟨st.tags ++ [storedAs t], st.repl⟩, bigtag) := by
        rw [takeTag, hr.1, hr.2]
        rfl
      have hroom : (st.tags ++ [storedAs t]).length ≤ max := by
        simp only [List.length_append, List.length_singleton]
        omega
      simp only [hp, htake, hsize, List.drop_left] at h
      rcases hrest with rfl | ⟨r', rfl⟩
      · obtain ⟨_, rfl⟩ := Prod.mk.inj (Except.ok.inj h)
        have hone : more = [] := by
          rw [tagTexts, if_neg hstop.1, List.append_nil, List.splitOn_eq_singleton ht] at htexts
          exact (List.cons.inj htexts).2.symm
        refine ⟨?_, rfl⟩
        simp only [hone, List.map_cons, List.map_nil]
        exact (List.take_of_length_le hroom).symm
      · simp only [ne_eq, not_true_eq_false, false_or] at h
        by_cases hr'ne : r' = []
        · simp [hr'ne] at h
        rw [if_neg (by simpa using hr'ne)] at h
        have hm := hmore r' rfl hr'ne
        simp only [List.length_append, List.length_cons] at hfuel
        obtain ⟨htags, hrepl⟩ := ih (by omega) (fun x hx => hlong x (by simp [hm, hx])) hroom h
        refine ⟨?_, hrepl⟩
        rw [htags, hm]
        simp

theorem eatTags_readBlocks {fuel : Nat} {e e' : Eaten} (hst : e.stags.length ≤ maxTags)
    (hmt : e.mtags.length ≤ maxTags)
    (hlong : ∀ t ∈ (readBlocks fuel e.name).stream ++ (readBlocks fuel e.name).measurement,
      t.length ≤ maxPairLen)
    (h : eatTags b sha1Hex fuel e = .ok e') (hmark : ¬ HasMarker e'.name) :
    e'.name = (readBlocks fuel e.name).base ∧
      e'.stags = (e.stags ++ (readBlocks fuel e.name).stream.map storedAs).take maxTags ∧
      e'.mtags = (e.mtags ++ (readBlocks fuel e.name).measurement.map storedAs).take maxTags := by
  induction fuel generalizing e with
  | zero =>
    obtain rfl := Except.ok.inj h
    simp [readBlocks, List.take_of_length_le hst, List.take_of_length_le hmt]
  | succ fuel ih =>
    rw [eatTags, eatUpTags_eq] at h
    rw [readBlocks] at hlong ⊢
    cases hs : lastBlock stOpen stClose e.name with
    | some p =>
      obtain ⟨rest, content⟩ := p
      simp only [hs] at h hlong ⊢
      cases hb : buildTags b sha1Hex maxTags content ⟨e.stags, e.repl⟩ with
      | error f => simp [hb] at h
      | ok r =>
        obtain ⟨r, st⟩ := r
        cases r with
        | true =>
          simp only [hb] at h
          obtain ⟨htags, _⟩ := buildTagsLoop_pieces le_rfl
            (fun t ht => hlong t (by simp [ht])) hst hb
          simp only at htags
          have hlen : st.tags.length ≤ maxTags := by rw [htags]; simp
          obtain ⟨hname, hstags, hmtags⟩ := ih (e := ⟨rest, st.tags, e.mtags, st.repl⟩) hlen hmt
            (fun t ht => hlong t (by
              rcases List.mem_append.mp ht with ht | ht
              · simp [ht]
              · simp [ht])) h
          refine ⟨hname, ?_, hmtags⟩
          simp only at hstags
          rw [hstags, htags, take_take_append, List.map_append, List.append_assoc]
        | false =>
          -- The refused block still marks the name, and no block of the other kind ends it.
          obtain ⟨hin, hcl⟩ := lastBlock_cases hs
          have hm : lastBlock mtOpen mtClose e.name = none := by
            by_contra hn
            obtain ⟨⟨rest', content'⟩, hsome⟩ := Option.ne_none_iff_exists'.mp hn
            have hcl' := (lastBlock_cases hsome).2
            rw [show mtClose.length = stClose.length from rfl, hcl] at hcl'
            exact absurd hcl' (by decide)
          simp only [hb, eatUpTags_eq, hm] at h
          obtain rfl := Except.ok.inj h
          exact absurd (Or.inl hin) hmark
    | none =>
      simp only [hs, eatUpTags_eq] at h hlong ⊢
      cases hm : lastBlock mtOpen mtClose e.name with
      | none =>
        simp only [hm] at h
        obtain rfl := Except.ok.inj h
        simp [List.take_of_length_le hst, List.take_of_length_le hmt]
      | some p =>
        obtain ⟨rest, content⟩ := p
        simp only [hm] at h hlong ⊢
        cases hb : buildTags b sha1Hex maxTags content ⟨e.mtags, e.repl⟩ with
        | error f => simp [hb] at h
        | ok r =>
          obtain ⟨r, mt⟩ := r
          cases r with
          | true =>
            simp only [hb] at h
            obtain ⟨htags, _⟩ := buildTagsLoop_pieces le_rfl
              (fun t ht => hlong t (by simp [ht])) hmt hb
            simp only at htags
            have hlen : mt.tags.length ≤ maxTags := by rw [htags]; simp
            obtain ⟨hname, hstags, hmtags⟩ := ih (e := ⟨rest, e.stags, mt.tags, mt.repl⟩) hst hlen
              (fun t ht => hlong t (by
                rcases List.mem_append.mp ht with ht | ht
                · simp [ht]
                · simp [ht])) h
            refine ⟨hname, hstags, ?_⟩
            simp only at hmtags
            rw [hmtags, htags, take_take_append, List.map_append, List.append_assoc]
          | false =>
            simp only [hb] at h
            obtain rfl := Except.ok.inj h
            exact absurd (Or.inr (lastBlock_cases hm).1) hmark

theorem decodedTag_of_room {n : Nat} {t d : Bytes} (hn : t.length ≤ n)
    (h : decodeTag b n t = some d) : decodedTag b t = some d := by
  obtain ⟨k, v, hk, hsep, _, hv, rfl⟩ := decodeTag_some_iff.mp h
  have hkl := length_decodePart_le hk
  have hkt := length_upTo_le 58 t
  have hvt : (after 58 t).length = t.length - ((upTo 58 t).length + 1) := by
    simp only [after, List.length_drop]
  rw [decodePart_of_length_le (by omega)] at hk
  rw [decodePart_of_length_le (by omega)] at hv
  refine decodeTag_some_iff.mpr ⟨k, v, ?_, hsep, by omega, ?_, rfl⟩
  · rw [decodePart_of_length_le (by omega), hk]
  · rw [decodePart_of_length_le (by omega), hv]

theorem decodedTag_storedAs {t : Bytes} (h : decodeTagsOne b (storedAs t) ≠ []) :
    decodedTag b t = some (decodeTagsOne b (storedAs t)) := by
  have hroom : t.length ≤ if (storedAs t).categorySize = t.length then t.length + 1 else t.length := by
    split_ifs <;> omega
  unfold decodeTagsOne at h ⊢
  simp only [storedAs] at h hroom ⊢
  cases hd : decodeTag b _ t with
  | none => simp [hd] at h
  | some d => exact decodedTag_of_room hroom hd

theorem decodeTags_storedAs {texts : List Bytes} (hne : ∀ x ∈ decodeTags b (texts.map storedAs), x ≠ []) :
    decodeTags b (texts.map storedAs) = decodedTags b texts := by
  have hall : ∀ t ∈ texts, decodedTag b t = some (decodeTagsOne b (storedAs t)) := fun t ht =>
    decodedTag_storedAs (hne _ (List.mem_map_of_mem (List.mem_map_of_mem ht)))
  rw [decodeTags, decodedTags, List.map_map, List.filterMap_congr hall]
  exact (congrFun List.filterMap_eq_map texts).symm

theorem mem_decodeTags_iff {texts : List Bytes} {d : Bytes}
    (hne : ∀ x ∈ decodeTags b (texts.map storedAs), x ≠ []) :
    d ∈ decodeTags b (texts.map storedAs) ↔ d ∈ decodedTags b texts := by
  rw [decodeTags_storedAs hne]

theorem lastBlock_none_of_not_infix {opening closing name : Bytes} (h : ¬ opening <:+: name) :
    lastBlock opening closing name = none := by
  unfold lastBlock
  split_ifs
  · rfl
  · rfl
  · rw [blockStart_none h]
    rfl

theorem lastBlock_other {opening x : Bytes} {c cl : UInt8} (h : c ≠ cl) :
    lastBlock opening [cl] (x ++ [c]) = none := by
  unfold lastBlock
  split_ifs with hlen hcl
  · rfl
  · rfl
  · simp [h] at hcl

theorem lastBlock_append {x text tail : Bytes} {p cl : UInt8} (htail : p ∉ tail)
    (ht : p ∉ text ++ [cl]) :
    lastBlock (p :: tail) [cl] (x ++ (p :: tail) ++ (text ++ [cl])) = some (x, text) := by
  have hlast : (x ++ (p :: tail) ++ (text ++ [cl])).drop
      ((x ++ (p :: tail) ++ (text ++ [cl])).length - [cl].length) = [cl] := by
    rw [← List.append_assoc]
    apply List.drop_left'
    simp only [List.length_append, List.length_singleton]
    omega
  have hmid : ((x ++ (p :: tail) ++ (text ++ [cl])).drop (x.length + (p :: tail).length)).take
      ((x ++ (p :: tail) ++ (text ++ [cl])).length - (x.length + (p :: tail).length) - 1) = text := by
    rw [List.drop_left' (by simp)]
    apply List.take_left'
    simp only [List.length_append, List.length_singleton]
    omega
  have hstart := blockStart_append 1 x htail ht (by simp)
  rw [lastBlock, if_neg (by simp only [List.length_append, List.length_cons]; omega),
    if_neg (by rw [hlast]; simp), List.length_singleton, hstart, Option.map_some, hmid]
  simp

theorem readBlocks_name {name : Bytes} (hname : ¬ HasMarker name) (fuel : Nat) :
    readBlocks fuel name = ⟨name, [], []⟩ := by
  have hst : ¬ stOpen <:+: name := fun h => hname (Or.inl h)
  have hmt : ¬ mtOpen <:+: name := fun h => hname (Or.inr h)
  cases fuel with
  | zero => rfl
  | succ fuel => simp only [readBlocks, lastBlock_none_of_not_infix hst, lastBlock_none_of_not_infix hmt]

theorem not_mem_intercalate {c x : UInt8} (hc : c ≠ x) {texts : List Bytes} (h : ∀ t ∈ texts, c ∉ t) :
    c ∉ [x].intercalate texts := by
  induction texts with
  | nil => simp
  | cons t texts ih =>
    have ht := h t List.mem_cons_self
    have hi := ih fun u hu => h u (List.mem_cons_of_mem _ hu)
    cases texts with
    | nil => simpa using ht
    | cons u texts =>
      rw [List.intercalate_cons_cons]
      simp [ht, hc, hi]

theorem readBlocks_texts {name : Bytes} (hname : ¬ HasMarker name) {texts : List Bytes}
    (hne : texts ≠ []) (hdel : ∀ t ∈ texts, 44 ∉ t ∧ 124 ∉ t) (hnil : [44].intercalate texts ≠ [])
    (fuel : Nat) :
    readBlocks (fuel + 1) (name ++ stOpen ++ ([44].intercalate texts ++ stClose)) =
      ⟨name, texts, []⟩ := by
  have hbar : 124 ∉ [44].intercalate texts ++ [93] := by
    have hin := @not_mem_intercalate 124 44 (by decide) texts fun t ht => (hdel t ht).2
    simpa using hin
  have hblock : lastBlock stOpen stClose (name ++ stOpen ++ ([44].intercalate texts ++ stClose)) =
      some (name, [44].intercalate texts) := lastBlock_append (by decide) hbar
  have htexts : tagTexts ([44].intercalate texts) = texts := by
    rw [tagTexts, if_neg hnil, List.splitOn_intercalate _ (fun t ht => (hdel t ht).1) hne]
  rw [readBlocks, hblock]
  simp only
  rw [readBlocks_name hname, htexts, List.append_nil]

theorem taggedName_texts {name : Bytes} (hname : ¬ HasMarker name) {texts : List Bytes}
    (hne : texts ≠ []) (hdel : ∀ t ∈ texts, 44 ∉ t ∧ 124 ∉ t) (hnil : [44].intercalate texts ≠ []) :
    taggedName (name ++ stOpen ++ ([44].intercalate texts ++ stClose)) = ⟨name, texts, []⟩ := by
  obtain ⟨fuel, hf⟩ : ∃ fuel,
      (name ++ stOpen ++ ([44].intercalate texts ++ stClose)).length = fuel + 1 :=
    ⟨_, by simp only [List.length_append, stClose, List.length_singleton]; rfl⟩
  rw [taggedName, hf]
  exact readBlocks_texts hname hne hdel hnil fuel

theorem tagTexts_join {l : List TagText} : tagTexts (TagText.join l) = l.map TagText.text := by
  cases l with
  | nil => rfl
  | cons t l =>
    rw [tagTexts, if_neg (TagText.join_ne_nil t l), TagText.join]
    apply List.splitOn_intercalate
    · intro text ht
      obtain ⟨u, _, rfl⟩ := List.mem_map.mp ht
      exact u.not_mem_text (by decide)
    · simp

theorem readBlocks_stBlock {name : Bytes} (hname : ¬ HasMarker name) (l : List TagText) (fuel : Nat) :
    readBlocks (fuel + 1) (name ++ blockText stOpen stClose l) = ⟨name, l.map TagText.text, []⟩ := by
  cases l with
  | nil => rw [blockText, List.append_nil, readBlocks_name hname, List.map_nil]
  | cons t l =>
    have hread := @readBlocks_texts name hname ((t :: l).map TagText.text) (by simp)
      (fun text ht => by
        obtain ⟨u, _, rfl⟩ := List.mem_map.mp ht
        exact ⟨u.not_mem_text (by decide), u.not_mem_text (by decide)⟩)
      (TagText.join_ne_nil t l) fuel
    rw [List.append_assoc] at hread
    exact hread

theorem readBlocks_writtenName {name : Bytes} (hname : ¬ HasMarker name) (s m : List TagText) (fuel : Nat) :
    readBlocks (fuel + 2) (writtenName name s m) = ⟨name, s.map TagText.text, m.map TagText.text⟩ := by
  cases m with
  | nil =>
    rw [writtenName, blockText, List.append_nil, readBlocks_stBlock hname, List.map_nil]
  | cons t l =>
    have hblock : lastBlock mtOpen mtClose (writtenName name s (t :: l)) =
        some (name ++ blockText stOpen stClose s, TagText.join (t :: l)) := by
      have hb := @lastBlock_append (name ++ blockText stOpen stClose s) (TagText.join (t :: l))
        [77, 84, 123] 124 125 (by decide)
        (by simpa using TagText.not_mem_join (c := 124) (t :: l) (by decide) (by decide))
      rw [List.append_assoc] at hb
      exact hb
    have hother : lastBlock stOpen stClose (writtenName name s (t :: l)) = none := by
      have ho := @lastBlock_other stOpen (name ++ blockText stOpen stClose s ++
        (mtOpen ++ TagText.join (t :: l))) 125 93 (by decide)
      rw [List.append_assoc, List.append_assoc mtOpen] at ho
      exact ho
    rw [readBlocks, hother, hblock]
    simp only
    rw [readBlocks_stBlock hname, tagTexts_join, List.append_nil]

theorem taggedName_writtenName {name : Bytes} (hname : ¬ HasMarker name) (s m : List TagText) :
    taggedName (writtenName name s m) = ⟨name, s.map TagText.text, m.map TagText.text⟩ := by
  rcases writtenName_cases name s m with ⟨rfl, rfl, he⟩ | ⟨opening, rest, hopening, he⟩
  · rw [he, taggedName, readBlocks_name hname]
    rfl
  · obtain ⟨fuel, hf⟩ : ∃ fuel, (writtenName name s m).length = fuel + 2 := by
      rw [he]
      rcases hopening with rfl | rfl
      · exact ⟨_, by simp [stOpen]; rfl⟩
      · exact ⟨_, by simp [mtOpen]; rfl⟩
    rw [taggedName, hf, readBlocks_writtenName hname]

end

section

variable {b : Base64} {q : QSort (id : Bytes → Bytes)} {sha1Hex : Bytes → Bytes}

theorem ne_nil_of_writes {tags : List Tag} {l : List TagText}
    (h : List.Forall₂ (Writes b) (sortDedup q (decodeTags b tags)) l) :
    ∀ d ∈ decodeTags b tags, d ≠ [] := by
  intro d hd
  have hsep : ∀ d ∈ sortDedup q (decodeTags b tags), tagSep ∈ d :=
    ((List.forall₂_and_left _ _).mp (h.imp fun _ _ ht => ⟨ht.sep, ht⟩)).1
  exact List.ne_nil_of_mem (hsep d ((mem_sortDedup_id q).mpr hd))

theorem map_text_eq {tags : List Bytes} {l l' : List TagText} (h : List.Forall₂ (Writes b) tags l)
    (h' : List.Forall₂ (Writes b) tags l') : l'.map TagText.text = l.map TagText.text := by
  induction h generalizing l' with
  | nil =>
    cases h'
    rfl
  | cons hd _ ih =>
    cases h' with
    | cons hd' htl' =>
      rw [List.map_cons, List.map_cons, ih htl', TagText.text, TagText.text, hd.key, hd.val, hd'.key,
        hd'.val]

theorem sortDedup_congr {l m : List Bytes} (h : ∀ d, d ∈ l ↔ d ∈ m) : sortDedup q l = sortDedup q m := by
  have hnd : ∀ l : List Bytes, (sortDedup q l).Nodup := fun l => (sortDedup_strict q l).imp ne_of_lt
  have hperm : (sortDedup q l).Perm (sortDedup q m) := by
    apply (List.perm_ext_iff_of_nodup (hnd l) (hnd m)).mpr
    intro d
    rw [mem_sortDedup_id, mem_sortDedup_id, h d]
  exact hperm.eq_of_pairwise (fun x y _ _ hxy hyx => absurd hxy (lt_asymm hyx)) (sortDedup_strict q l)
    (sortDedup_strict q m)

theorem listsAll_iff {texts : List Bytes} {l : List TagText}
    (h : List.Forall₂ (Writes b) (sortDedup q (decodeTags b ((texts.map storedAs).take maxTags))) l) :
    ListsAll b texts (l.map TagText.text) ↔ Covered b texts := by
  rw [← List.map_take] at h
  have hkept (d : Bytes) : d ∈ decodeTags b ((texts.take maxTags).map storedAs) ↔
      d ∈ decodedTags b (texts.take maxTags) := mem_decodeTags_iff (ne_nil_of_writes h)
  have hsub : ∀ d ∈ decodedTags b (texts.take maxTags), d ∈ decodedTags b texts := fun d hd =>
    ((List.take_sublist maxTags texts).filterMap _).subset hd
  constructor
  · rintro ⟨l', hsort, hmem, hall⟩ d hd
    have hlen : l'.length ≤ (sortDedup q (decodeTags b ((texts.take maxTags).map storedAs))).length := by
      rw [hall.length_eq, List.length_map, h.length_eq]
    have hnd : (sortDedup q (decodeTags b ((texts.take maxTags).map storedAs))).Nodup :=
      (sortDedup_strict q _).imp ne_of_lt
    have hss : sortDedup q (decodeTags b ((texts.take maxTags).map storedAs)) ⊆ l' := by
      intro x hx
      rw [mem_sortDedup_id, hkept] at hx
      exact (hmem x).mpr (hsub x hx)
    have hperm := (List.subperm_of_subset hnd hss).perm_of_length_le hlen
    have hin := hperm.symm.subset ((hmem d).mpr hd)
    rw [mem_sortDedup_id, hkept] at hin
    exact hin
  · intro hcov
    refine ⟨_, sortDedup_strict q _, fun d => ?_, List.forall₂_map_right_iff.mpr
      (h.imp fun _ _ hw => hw.encodeTag_eq)⟩
    rw [mem_sortDedup_id, hkept]
    exact ⟨hsub d, hcov d⟩

theorem accepted_cases {n : Nat} {s c : Bytes} (h : canonicalize b q sha1Hex n s = .ok c)
    (hlong : NoLongTag s) : ∃ sT mT,
      List.Forall₂ (Writes b)
        (sortDedup q (decodeTags b (((taggedName s).stream.map storedAs).take maxTags))) sT ∧
      List.Forall₂ (Writes b)
        (sortDedup q (decodeTags b (((taggedName s).measurement.map storedAs).take maxTags))) mT ∧
      c = writtenName (cleanName (taggedName s).base) sT mT ∧
      taggedName c = ⟨cleanName (taggedName s).base, sT.map TagText.text, mT.map TagText.text⟩ := by
  obtain ⟨_, e, sT, mT, he, hcan, rfl⟩ := canonicalOf_of_canonicalize h
  obtain ⟨hname, hst, hmt⟩ := eatTags_readBlocks (e := ⟨s, [], [], some 0⟩) (by simp) (by simp) hlong he
    hcan.name
  have hclean : ¬ HasMarker (cleanName e.name) := by
    rintro (hi | hi)
    · exact hcan.name (Or.inl (infix_of_cleanName (by decide) hi))
    · exact hcan.name (Or.inr (infix_of_cleanName (by decide) hi))
  have hs := hcan.stags
  have hm := hcan.mtags
  rw [hst, List.nil_append] at hs
  rw [hmt, List.nil_append] at hm
  simp only at hname
  refine ⟨sT, mT, hs, hm, ?_, ?_⟩
  · rw [hname]
    rfl
  · rw [taggedName_writtenName hclean, hname]
    rfl

theorem complete_iff {n : Nat} {s c : Bytes} (h : canonicalize b q sha1Hex n s = .ok c)
    (hlong : NoLongTag s) : Complete b s c ↔ WithinLimit b s := by
  obtain ⟨sT, mT, hs, hm, _, htag⟩ := accepted_cases h hlong
  rw [Complete, WithinLimit, htag]
  exact and_congr (listsAll_iff hs) (listsAll_iff hm)

theorem kept_eq {t₁ t₂ : List Bytes} {l₁ l₂ : List TagText}
    (h₁ : List.Forall₂ (Writes b) (sortDedup q (decodeTags b ((t₁.map storedAs).take maxTags))) l₁)
    (h₂ : List.Forall₂ (Writes b) (sortDedup q (decodeTags b ((t₂.map storedAs).take maxTags))) l₂)
    (hsame : ∀ d, d ∈ decodedTags b t₁ ↔ d ∈ decodedTags b t₂) (hc₁ : Covered b t₁)
    (hc₂ : Covered b t₂) : l₁.map TagText.text = l₂.map TagText.text := by
  have hall {t : List Bytes} (hc : Covered b t)
      (hne : ∀ d ∈ decodeTags b ((t.take maxTags).map storedAs), d ≠ []) (d : Bytes) :
      d ∈ decodeTags b ((t.take maxTags).map storedAs) ↔ d ∈ decodedTags b t := by
    rw [mem_decodeTags_iff hne]
    exact ⟨fun hd => ((List.take_sublist maxTags t).filterMap _).subset hd, hc d⟩
  rw [← List.map_take] at h₁ h₂
  have hn₁ := ne_nil_of_writes h₁
  have hn₂ := ne_nil_of_writes h₂
  rw [sortDedup_congr fun d => (hall hc₁ hn₁ d).trans ((hsame d).trans (hall hc₂ hn₂ d).symm)] at h₁
  exact map_text_eq h₂ h₁

theorem moves_within_iff {texts : List Bytes} {l : List TagText}
    (h : List.Forall₂ (Writes b) (sortDedup q (decodeTags b ((texts.map storedAs).take maxTags))) l) :
    (∀ m ∈ squashMoves id 0 (q.run (decodeTags b ((texts.map storedAs).take maxTags))), m.1 + m.2 ≤ maxTags) ↔
      Movable b texts := by
  have hheld : (decodeTags b ((texts.map storedAs).take maxTags)).length < maxTags ↔
    texts.length < maxTags := by
    rw [decodeTags, List.length_map, List.length_take, List.length_map]
    omega
  rw [squashMoves_within_iff (q.sorted _), List.map_id, (q.perm _).nodup_iff,
    (q.perm _).length_eq, Nat.zero_add, hheld,
    Movable, or_comm]
  rw [← List.map_take] at h ⊢
  rw [decodeTags_storedAs (ne_nil_of_writes h)]

theorem writesInside_iff {n : Nat} {s c : Bytes} (h : canonicalize b q sha1Hex n s = .ok c)
    (hlong : NoLongTag s) :
    WritesInside b q sha1Hex s ↔ NotFull b s := by
  obtain ⟨-, e, sT, mT, he, hcan, rfl⟩ := canonicalOf_of_canonicalize h
  obtain ⟨-, hst, hmt⟩ := eatTags_readBlocks (e := ⟨s, [], [], some 0⟩) (by simp) (by simp) hlong he hcan.name
  have hs := hcan.stags
  have hm := hcan.mtags
  rw [List.nil_append] at hst hmt
  rw [hst] at hs
  rw [hmt] at hm
  rw [WritesInside, canonicalMoves, he]
  simp only [List.forall_mem_append, hst, hmt]
  exact and_congr (moves_within_iff hs) (moves_within_iff hm)

/-- Two accepted names that mean the same are written the same, with all of their tags and with nothing
written behind the arrays, exactly when neither loses a tag to the limit on their number or has to move
tags in a full array. -/
theorem canonicalize_meaning_iff {n₁ n₂ : Nat} {s₁ s₂ c₁ c₂ : Bytes}
    (h₁ : canonicalize b q sha1Hex n₁ s₁ = .ok c₁) (h₂ : canonicalize b q sha1Hex n₂ s₂ = .ok c₂)
    (hlong₁ : NoLongTag s₁) (hlong₂ : NoLongTag s₂) (hsame : SameMeaning b s₁ s₂) :
    ((WritesInside b q sha1Hex s₁ ∧ WritesInside b q sha1Hex s₂) ∧ c₁ = c₂ ∧
      Complete b s₁ c₁ ∧ Complete b s₂ c₂) ↔
      (NotFull b s₁ ∧ NotFull b s₂) ∧ WithinLimit b s₁ ∧ WithinLimit b s₂ := by
  rw [complete_iff h₁ hlong₁, complete_iff h₂ hlong₂, writesInside_iff h₁ hlong₁, writesInside_iff h₂ hlong₂]
  refine and_congr_right fun _ => ⟨fun h => h.2, fun h => ⟨?_, h⟩⟩
  obtain ⟨sT₁, mT₁, hs₁, hm₁, rfl, _⟩ := accepted_cases h₁ hlong₁
  obtain ⟨sT₂, mT₂, hs₂, hm₂, rfl, _⟩ := accepted_cases h₂ hlong₂
  have hs := kept_eq hs₁ hs₂ hsame.stream h.1.1 h.2.1
  have hm := kept_eq hm₁ hm₂ hsame.measurement h.1.2 h.2.2
  rw [writtenName, writtenName, hsame.base, blockText_congr hs, blockText_congr hm]

end

def plainSpelling : Bytes := [109, 124, 83, 84, 91, 98, 58, 121, 44, 97, 58, 120, 93]

-- m|ST[a:x]|ST[b"Yg==":y,a:x]
def otherSpelling : Bytes :=
  [109, 124, 83, 84, 91, 97, 58, 120, 93, 124, 83, 84, 91, 98, 34, 89, 103, 61,
    61, 34, 58, 121, 44, 97, 58, 120, 93]

/-- m|ST[b:y,a:x] and a spelling with two blocks, a tag in base64 and a repeated tag are written alike,
inside the arrays and with both tags. -/
theorem canonicalize_meaning_two_spellings :
    (WritesInside standardBase64 (insertionQSort id) (fun _ => []) plainSpelling ∧
      WritesInside standardBase64 (insertionQSort id) (fun _ => []) otherSpelling) ∧
    ([109, 124, 83, 84, 91, 97, 58, 120, 44, 98, 58, 121, 93] : Bytes) =
        [109, 124, 83, 84, 91, 97, 58, 120, 44, 98, 58, 121, 93] ∧
      Complete standardBase64 plainSpelling [109, 124, 83, 84, 91, 97, 58, 120, 44, 98, 58, 121, 93] ∧
      Complete standardBase64 otherSpelling [109, 124, 83, 84, 91, 97, 58, 120, 44, 98, 58, 121, 93] := by
  have hfirst : decodedTags standardBase64 (taggedName plainSpelling).stream =
    [[98, 31, 121], [97, 31, 120]] := by
    decide +kernel
  have hsecond : decodedTags standardBase64 (taggedName otherSpelling).stream =
      [[98, 31, 121], [97, 31, 120], [97, 31, 120]] := by decide +kernel
  have hsame : SameMeaning standardBase64 plainSpelling otherSpelling := by
    refine ⟨by decide +kernel, fun d => ?_, fun d => Iff.rfl⟩
    rw [hfirst, hsecond]
    simp
  have hfew : ∀ {texts : List Bytes}, texts.length < maxTags →
      Movable standardBase64 texts ∧ Covered standardBase64 texts := by
    intro texts hlen
    refine ⟨.inl hlen, fun d hd => ?_⟩
    rwa [List.take_of_length_le hlen.le]
  have hplain := @hfew (taggedName plainSpelling).stream (by decide +kernel)
  have hother := @hfew (taggedName otherSpelling).stream (by decide +kernel)
  have hnone := @hfew [] (by decide)
  exact (@canonicalize_meaning_iff standardBase64 (insertionQSort id)
    (fun _ => []) 4096 4096 plainSpelling otherSpelling
    _ _ (by decide +kernel) (by decide +kernel) (by decide +kernel) (by decide +kernel) hsame).mpr
    ⟨⟨⟨hplain.1, hnone.1⟩, hother.1, hnone.1⟩, ⟨hplain.2, hnone.2⟩, hother.2, hnone.2⟩

theorem buildTagsLoop_keyOnly {b : Base64} {sha1Hex : Bytes → Bytes} {max fuel bigtag : Nat}
    {texts : List Bytes} {rest : Bytes} {st : TagScan}
    (htexts : ∀ t ∈ texts, t ≠ [] ∧ 58 ∉ t ∧ 44 ∉ t ∧ t.length ≤ maxPairLen) (hrest : rest ≠ [])
    (hfull : st.tags.length + texts.length = max) :
    buildTagsLoop b sha1Hex max (fuel + texts.length) (texts.flatMap (· ++ [44]) ++ rest) bigtag st =
      .ok (true, ⟨st.tags ++ texts.map storedAs, st.repl⟩) := by
  induction texts generalizing st with
  | nil =>
    simp only [List.length_nil, Nat.add_zero] at hfull
    cases fuel with
    | zero => simp [buildTagsLoop]
    | succ fuel => simp [buildTagsLoop, hfull]
  | cons t texts ih =>
    obtain ⟨hne, hk, hc, hlen⟩ := htexts t List.mem_cons_self
    simp only [List.length_cons] at hfull
    have hinput : (t :: texts).flatMap (· ++ [44]) ++ rest =
        t ++ 44 :: (texts.flatMap (· ++ [44]) ++ rest) := by simp
    have hmore : texts.flatMap (· ++ [44]) ++ rest ≠ [] := by simp [hrest]
    rw [hinput, List.length_cons, ← Nat.add_assoc, buildTagsLoop,
      if_neg (by simp only [List.length_append, List.length_cons]; omega),
      parseOne_keyOnly hne hk hc hlen]
    simp only [takeTag, Bool.false_eq_true, if_false, List.drop_left, ne_eq, not_true_eq_false,
      false_or]
    rw [if_neg (fun he => hmore (List.length_eq_zero_iff.mp he)),
      ih (fun x hx => htexts x (List.mem_cons_of_mem _ hx)) (by simp; omega)]
    simp

theorem intercalate_concat (texts : List Bytes) (x : Bytes) :
    [44].intercalate (texts ++ [x]) = texts.flatMap (· ++ [44]) ++ x := by
  induction texts with
  | nil => simp
  | cons t texts ih =>
    obtain ⟨u, us, he⟩ := List.exists_cons_of_ne_nil (List.append_ne_nil_of_right_ne_nil texts
      (List.cons_ne_nil x []))
    rw [List.cons_append, he, List.intercalate_cons_cons, ← he, ih]
    simp

theorem eatName_full {b : Base64} {sha1Hex : Bytes → Bytes} {name x : Bytes} {texts : List Bytes}
    (hname : ¬ HasMarker name) (hfull : texts.length = maxTags) (hx : x ≠ [] ∧ 124 ∉ x)
    (htexts : ∀ t ∈ texts, t ≠ [] ∧ 58 ∉ t ∧ 44 ∉ t ∧ t.length ≤ maxPairLen)
    (hbar : ∀ t ∈ texts, 124 ∉ t) :
    eatName b sha1Hex (name ++ stOpen ++ ([44].intercalate (texts ++ [x]) ++ stClose)) =
      .ok ⟨name, texts.map storedAs, [], some 0⟩ := by
  have hnot : 124 ∉ [44].intercalate (texts ++ [x]) ++ [93] := by
    have hin := @not_mem_intercalate 124 44 (by decide) (texts ++ [x])
      fun t ht => (List.mem_append.mp ht).elim (hbar t) fun hm => by
        rw [List.mem_singleton.mp hm]
        exact hx.2
    simpa using hin
  have hblock : lastBlock stOpen stClose
      (name ++ stOpen ++ ([44].intercalate (texts ++ [x]) ++ stClose)) =
        some (name, [44].intercalate (texts ++ [x])) := lastBlock_append (by decide) hnot
  have hlen : texts.length ≤ ([44].intercalate (texts ++ [x])).length := by
    have hcount : texts.length ≤ (texts.flatMap (· ++ [44])).length := by
      clear hfull htexts hbar hnot hblock
      induction texts with
      | nil => simp
      | cons t texts ih =>
        simp only [List.flatMap_cons, List.length_append, List.length_cons]
        omega
    rw [intercalate_concat, List.length_append]
    omega
  obtain ⟨more, hmore⟩ := Nat.exists_eq_add_of_le hlen
  obtain ⟨fuel, hf⟩ : ∃ fuel,
      (name ++ stOpen ++ ([44].intercalate (texts ++ [x]) ++ stClose)).length = fuel + 1 :=
    ⟨_, by simp only [List.length_append, stClose, List.length_singleton]; rfl⟩
  have hbuild : buildTags b sha1Hex maxTags ([44].intercalate (texts ++ [x])) ⟨[], some 0⟩ =
      .ok (true, ⟨texts.map storedAs, some 0⟩) := by
    rw [buildTags, hmore, Nat.add_comm, intercalate_concat]
    exact buildTagsLoop_keyOnly htexts hx.1 (by simpa using hfull)
  rw [eatName, hf, eatTags, eatUpTags_eq, hblock]
  simp only
  rw [hbuild]
  exact eatTags_name hname fuel

theorem canonicalize_full {b : Base64} {q : QSort (id : Bytes → Bytes)} {sha1Hex : Bytes → Bytes}
    {outputLen : Nat} {name x text : Bytes} {texts : List Bytes} (hname : ¬ HasMarker name)
    (hclean : cleanName name = name) (hne : name ≠ [])
    (hfull : texts.length = maxTags) (hx : x ≠ [] ∧ 124 ∉ x)
    (htexts : ∀ t ∈ texts, t ≠ [] ∧ 58 ∉ t ∧ 44 ∉ t ∧ t.length ≤ maxPairLen)
    (hbar : ∀ t ∈ texts, 124 ∉ t)
    (hdecode : decodeTags b (texts.map storedAs) = texts.map (· ++ [31]))
    (hsort : (texts.map (· ++ [31])).Pairwise (· < ·))
    (hroom : (name ++ stOpen ++ ([44].intercalate (texts ++ [x]) ++ stClose)).length ≤ outputLen)
    (hcommas : (name ++ stOpen ++ ([44].intercalate (texts ++ [x]) ++ stClose)).count 44 ≤ maxTags)
    (hcanonical : tagsCanonical b true (texts.map (· ++ [31]))
      (subSize outputLen (name ++ stOpen).length) = some text)
    (hshort : (name ++ stOpen ++ text ++ stClose).length < maxMetricTaggedName) :
    canonicalize b q sha1Hex outputLen
        (name ++ stOpen ++ ([44].intercalate (texts ++ [x]) ++ stClose)) =
      .ok (name ++ stOpen ++ text ++ stClose) := by
  have hpos := List.length_pos_iff.mpr hne
  have hnil : texts.map (· ++ [31]) ≠ [] := by
    intro he
    rw [List.map_eq_nil_iff] at he
    rw [he] at hfull
    exact absurd hfull (by decide)
  unfold canonicalize canonicalizeEx
  rw [if_neg (by omega), if_neg (by omega), eatName_full hname hfull hx htexts hbar]
  simp only [bind, Except.bind, hname, if_false, hdecode, sortDedup_eq_self q hsort, if_true, hclean]
  rw [if_neg (by omega), writeBlock, if_neg hnil]
  simp only [hcanonical, decodeTags, List.map_nil, (sortDedup_eq_nil_iff q).mpr rfl, writeBlock, if_true]
  rw [if_neg (by omega)]

def letterTags : List Bytes :=
  (List.range maxTags).map fun i => [.ofNat (97 + i / 16), .ofNat (97 + i % 16)]

theorem letterTags_plain :
    ∀ t ∈ letterTags, t ≠ [] ∧ 58 ∉ t ∧ 44 ∉ t ∧ t.length ≤ maxPairLen ∧ 124 ∉ t := by
  decide +kernel

theorem canonicalize_meaning_fails :
    canonicalize standardBase64 (insertionQSort id) (fun _ => []) 4096
        ([109] ++ stOpen ++ ([44].intercalate (letterTags ++ [[113, 97]]) ++ stClose)) =
      .ok ([109] ++ stOpen ++ [44].intercalate (letterTags.map (· ++ [58])) ++ stClose) ∧
    NoLongTag ([109] ++ stOpen ++ ([44].intercalate (letterTags ++ [[113, 97]]) ++ stClose)) ∧
    [113, 97, 31] ∈ decodedTags standardBase64 (taggedName
      ([109] ++ stOpen ++ ([44].intercalate (letterTags ++ [[113, 97]]) ++ stClose))).stream ∧
    [113, 97, 58] ∉ (taggedName
      ([109] ++ stOpen ++ ([44].intercalate (letterTags.map (· ++ [58])) ++ stClose))).stream := by
  have hname : ¬ HasMarker [109] := by decide
  have hplain := letterTags_plain
  have hqa : ∀ t ∈ letterTags ++ [[113, 97]], 44 ∉ t ∧ 124 ∉ t ∧ t.length ≤ maxPairLen := by
    intro t ht
    rcases List.mem_append.mp ht with hm | hm
    · exact ⟨(hplain t hm).2.2.1, (hplain t hm).2.2.2.2, (hplain t hm).2.2.2.1⟩
    · rw [List.mem_singleton.mp hm]
      decide
  have hin := taggedName_texts hname (List.append_ne_nil_of_right_ne_nil letterTags
    (List.cons_ne_nil [113, 97] [])) (fun t ht => ⟨(hqa t ht).1, (hqa t ht).2.1⟩)
    (by rw [intercalate_concat]; simp)
  have hout := @taggedName_texts [109] hname (letterTags.map (· ++ [58])) (by decide)
    (fun t ht => by
      obtain ⟨u, hu, rfl⟩ := List.mem_map.mp ht
      simp [(hplain u hu).2.2.1, (hplain u hu).2.2.2.2]) (by decide +kernel)
  refine ⟨canonicalize_full hname rfl (by decide) (by decide +kernel) (by decide)
    (fun t ht => ⟨(hplain t ht).1, (hplain t ht).2.1, (hplain t ht).2.2.1, (hplain t ht).2.2.2.1⟩)
    (fun t ht => (hplain t ht).2.2.2.2) (by decide +kernel)
    (List.isChain_iff_pairwise.mp (by decide +kernel)) (by decide +kernel) (by decide +kernel)
    (by decide +kernel) (by decide +kernel), ?_, ?_, ?_⟩
  · rw [NoLongTag, hin, List.append_nil]
    exact fun t ht => (hqa t ht).2.2
  · rw [hin]
    exact List.mem_filterMap.mpr ⟨[113, 97], List.mem_append_right _ List.mem_cons_self, by decide⟩
  · rw [hout]
    intro hm
    obtain ⟨u, hu, he⟩ := List.mem_map.mp hm
    have hlast : u = [113, 97] := by
      have hcut := congrArg List.dropLast he
      rwa [List.dropLast_concat] at hcut
    rw [hlast] at hu
    revert hu
    decide +kernel

end Reconnoiter
