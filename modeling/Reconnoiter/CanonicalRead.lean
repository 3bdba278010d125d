import Reconnoiter.Canonical

/-! Reading a name back whose tag blocks were written from tag texts: a block is
refused, and then still marks the name, or its very tags are found. -/

namespace Reconnoiter

theorem blockStart_none {opening input : Bytes} {slen : Nat} (h : ¬ opening <:+: input) :
    blockStart opening slen input = none := by
  induction input with
  | nil => rfl
  | cons c rest ih =>
    have hrest : ¬ opening <:+: rest := fun hr => h (hr.trans (List.suffix_cons c rest).isInfix)
    have hhere : ¬ opening <+: c :: rest := fun hp => h hp.isInfix
    simp [blockStart, ih hrest, hhere]

theorem blockStart_append {p : UInt8} {tail t : Bytes} (slen : Nat) (x : Bytes) (htail : p ∉ tail)
    (ht : p ∉ t) (hlen : slen ≤ t.length) :
    blockStart (p :: tail) slen (x ++ (p :: tail) ++ t) = some x.length := by
  induction x with
  | nil =>
    have hnone : blockStart (p :: tail) slen (tail ++ t) = none := by
      apply blockStart_none
      intro hi
      have hm : p ∈ tail ++ t := hi.subset (by simp)
      exact (List.mem_append.mp hm).elim htail ht
    simp only [List.nil_append, List.cons_append, blockStart, hnone]
    rw [if_pos]
    · rfl
    · refine ⟨?_, List.prefix_append (p :: tail) t⟩
      simp only [List.length_cons, List.length_append]
      omega
  | cons c x ih =>
    simp only [List.cons_append, List.append_assoc] at ih ⊢
    rw [blockStart, ih]
    rfl

section

variable {b : Base64} {sha1Hex : Bytes → Bytes} {max : Nat} {st : TagScan}

theorem eatUpTags_no_block {input opening closing : Bytes} (h : ¬ opening <:+: input) :
    eatUpTags b sha1Hex max input st opening closing = .ok (none, st) := by
  unfold eatUpTags
  split_ifs
  · rfl
  · rfl
  · rw [blockStart_none h]

theorem eatUpTags_other_close {x : Bytes} {c cl : UInt8} {opening : Bytes} (h : c ≠ cl) :
    eatUpTags b sha1Hex max (x ++ [c]) st opening [cl] = .ok (none, st) := by
  unfold eatUpTags
  split_ifs with hlen hcl
  · rfl
  · rfl
  · simp [h] at hcl

theorem eatUpTags_block {x text : Bytes} {p cl : UInt8} {tail : Bytes} (htail : p ∉ tail)
    (ht : p ∉ text ++ [cl]) :
    eatUpTags b sha1Hex max (x ++ (p :: tail) ++ (text ++ [cl])) st (p :: tail) [cl] =
      (buildTags b sha1Hex max text st).map fun r => (if r.1 then some x else none, r.2) := by
  have hlast : (x ++ (p :: tail) ++ (text ++ [cl])).drop
      ((x ++ (p :: tail) ++ (text ++ [cl])).length - [cl].length) = [cl] := by
    rw [← List.append_assoc]
    apply List.drop_left'
    simp only [List.length_append, List.length_singleton]
    omega
  have hmid : ((x ++ (p :: tail) ++ (text ++ [cl])).drop (x.length + (p :: tail).length)).take
      ((x ++ (p :: tail) ++ (text ++ [cl])).length - (x.length + (p :: tail).length) -
        [cl].length) = text := by
    rw [List.drop_left' (by simp)]
    apply List.take_left'
    simp only [List.length_append, List.length_singleton]
    omega
  have hroom : ¬ (x ++ (p :: tail) ++ (text ++ [cl])).length < [cl].length + (p :: tail).length := by
    simp only [List.length_append, List.length_cons]
    omega
  have hstart := blockStart_append 1 x htail ht (by simp)
  rw [eatUpTags, if_neg hroom, if_neg (by rw [hlast]; simp)]
  simp only [List.length_singleton] at hmid ⊢
  rw [hstart]
  simp only [hmid]
  rcases buildTags b sha1Hex max text st with e | ⟨r, st'⟩
  · rfl
  · cases r
    · rfl
    · simp [Except.map]

end

def blockText (opening closing : Bytes) : List TagText → Bytes
  | [] => []
  | t :: l => opening ++ (TagText.join (t :: l) ++ closing)

/-- A name as canonicalization prints it; a block without tags is left out. -/
def writtenName (name : Bytes) (stags mtags : List TagText) : Bytes :=
  name ++ blockText stOpen stClose stags ++ blockText mtOpen mtClose mtags

theorem writtenName_cases (name : Bytes) (stags mtags : List TagText) :
    stags = [] ∧ mtags = [] ∧ writtenName name stags mtags = name ∨
      ∃ opening rest, (opening = stOpen ∨ opening = mtOpen) ∧
        writtenName name stags mtags = name ++ (opening ++ rest) := by
  cases stags with
  | cons t l =>
    refine Or.inr ⟨stOpen, TagText.join (t :: l) ++ stClose ++ blockText mtOpen mtClose mtags, Or.inl rfl, ?_⟩
    simp [writtenName, blockText]
  | nil =>
    cases mtags with
    | cons t l =>
      refine Or.inr ⟨mtOpen, TagText.join (t :: l) ++ mtClose, Or.inr rfl, ?_⟩
      simp [writtenName, blockText]
    | nil => exact Or.inl ⟨rfl, rfl, by simp [writtenName, blockText]⟩

/-- The tags are read and give what is expected, unless the name still has a marker of tags or one of
the texts cannot be read. -/
def Eats (result : Except Fault Eaten) (expected : Eaten) (readable : Prop) : Prop :=
  ∃ e, result = .ok e ∧ (¬ HasMarker e.name → e = expected) ∧ (readable → e = expected)

section

variable {b : Base64} {sha1Hex : Bytes → Bytes} {name : Bytes} {st mt : List Tag} {repl : Option Nat}

theorem eatTags_name (hname : ¬ HasMarker name) (fuel : Nat) :
    eatTags b sha1Hex fuel ⟨name, st, mt, repl⟩ = .ok ⟨name, st, mt, repl⟩ := by
  have hst : ¬ stOpen <:+: name := fun h => hname (Or.inl h)
  have hmt : ¬ mtOpen <:+: name := fun h => hname (Or.inr h)
  cases fuel with
  | zero => rfl
  | succ fuel => simp only [eatTags, eatUpTags_no_block hst, eatUpTags_no_block hmt]

theorem eatTags_stBlock (hname : ¬ HasMarker name) {stags : List TagText}
    (hlen : st.length + stags.length ≤ maxTags) (fuel : Nat) :
    Eats (eatTags b sha1Hex (fuel + 1) ⟨name ++ blockText stOpen stClose stags, st, mt, repl⟩)
      ⟨name, st ++ stags.map TagText.tag, mt, repl⟩ (∀ t ∈ stags, t.Readable) := by
  cases stags with
  | nil =>
    rw [blockText, List.append_nil, eatTags_name hname]
    exact ⟨_, rfl, by simp, by simp⟩
  | cons t l =>
    obtain ⟨r, st', hb, htrue, hread⟩ := @buildTagsLoop_join b sha1Hex maxTags _ 32768 ⟨st, repl⟩
      (t :: l) (le_refl _) hlen
    have heat := @eatUpTags_block b sha1Hex maxTags ⟨st, repl⟩ name (TagText.join (t :: l)) 124 93
      [83, 84, 91] (by decide)
      (by simpa using TagText.not_mem_join (c := 124) (t :: l) (by decide) (by decide))
    rw [buildTags, hb, List.append_assoc] at heat
    rw [eatTags, blockText, stOpen, stClose, heat]
    cases r with
    | true =>
      obtain rfl := htrue rfl
      simp only [Except.map, if_true]
      rw [eatTags_name hname]
      exact ⟨_, rfl, fun _ => rfl, fun _ => rfl⟩
    | false =>
      simp only [Except.map, Bool.false_eq_true, if_false]
      have hother := @eatUpTags_other_close b sha1Hex maxTags ⟨mt, st'.repl⟩
        (name ++ ([124, 83, 84, 91] ++ TagText.join (t :: l))) 93 125 mtOpen (by decide)
      rw [List.append_assoc, List.append_assoc] at hother
      rw [mtClose, hother]
      refine ⟨_, rfl, fun hmark => absurd ?_ hmark, fun h => absurd (hread h) (by simp)⟩
      exact Or.inl ⟨name, TagText.join (t :: l) ++ [93], by simp [stOpen]⟩

theorem eatTags_writtenName (hname : ¬ HasMarker name) {stags mtags : List TagText}
    (hst : stags.length ≤ maxTags) (hmt : mtags.length ≤ maxTags) (fuel : Nat) :
    Eats (eatTags b sha1Hex (fuel + 2) ⟨writtenName name stags mtags, [], [], repl⟩)
      ⟨name, stags.map TagText.tag, mtags.map TagText.tag, repl⟩
      (∀ t ∈ stags ++ mtags, t.Readable) := by
  cases mtags with
  | nil =>
    rw [writtenName, blockText, List.append_nil, List.append_nil]
    exact eatTags_stBlock hname (by simpa using hst) (fuel + 1)
  | cons t l =>
    obtain ⟨r, mt', hb, htrue, hread⟩ := @buildTagsLoop_join b sha1Hex maxTags _ 32768 ⟨[], repl⟩
      (t :: l) (le_refl _) (by simpa using hmt)
    have heat := @eatUpTags_block b sha1Hex maxTags ⟨[], repl⟩ (name ++ blockText stOpen stClose stags)
      (TagText.join (t :: l)) 124 125 [77, 84, 123] (by decide)
      (by simpa using TagText.not_mem_join (c := 124) (t :: l) (by decide) (by decide))
    rw [buildTags, hb, List.append_assoc] at heat
    have hother := @eatUpTags_other_close b sha1Hex maxTags ⟨[], repl⟩
      (name ++ blockText stOpen stClose stags ++ ([124, 77, 84, 123] ++ TagText.join (t :: l)))
      125 93 stOpen (by decide)
    rw [List.append_assoc, List.append_assoc [124, 77, 84, 123],
      show ([93] : Bytes) = stClose from rfl] at hother
    have hblock : blockText mtOpen mtClose (t :: l) =
      [124, 77, 84, 123] ++ (TagText.join (t :: l) ++ [125]) := rfl
    rw [eatTags, writtenName, hblock]
    rw [hother]
    simp only
    rw [mtOpen, mtClose, heat]
    cases r with
    | true =>
      obtain rfl := htrue rfl
      simp only [Except.map, if_true, List.nil_append]
      obtain ⟨e, he, hmark, hall⟩ := @eatTags_stBlock b sha1Hex name [] ((t :: l).map TagText.tag) repl
        hname stags (by simpa using hst) fuel
      exact ⟨e, he, hmark, fun h => hall fun u hu => h u (List.mem_append_left _ hu)⟩
    | false =>
      simp only [Except.map, Bool.false_eq_true, if_false]
      refine ⟨_, rfl, fun hmark => absurd ?_ hmark, fun h => ?_⟩
      · exact Or.inr ⟨name ++ blockText stOpen stClose stags, TagText.join (t :: l) ++ [125],
          by simp [mtOpen]⟩
      · exact absurd (hread fun u hu => h u (List.mem_append_right _ hu)) (by simp)

/-- The tags of a written name are eaten in as many turns as it has bytes. -/
theorem eatTags_writtenName_length (hname : ¬ HasMarker name) {stags mtags : List TagText}
    (hst : stags.length ≤ maxTags) (hmt : mtags.length ≤ maxTags) :
    Eats (eatTags b sha1Hex (writtenName name stags mtags).length
      ⟨writtenName name stags mtags, [], [], repl⟩)
      ⟨name, stags.map TagText.tag, mtags.map TagText.tag, repl⟩
      (∀ t ∈ stags ++ mtags, t.Readable) := by
  have hfuel : stags = [] ∧ mtags = [] ∨ ∃ fuel, (writtenName name stags mtags).length = fuel + 2 := by
    cases stags with
    | cons t l => exact Or.inr ⟨_, by simp [writtenName, blockText, stOpen]; rfl⟩
    | nil =>
      cases mtags with
      | cons t l => exact Or.inr ⟨_, by simp [writtenName, blockText, mtOpen]; rfl⟩
      | nil => exact Or.inl ⟨rfl, rfl⟩
  rcases hfuel with ⟨rfl, rfl⟩ | ⟨fuel, hf⟩
  · rw [writtenName, blockText, blockText, List.append_nil, List.append_nil, eatTags_name hname]
    exact ⟨_, rfl, fun _ => rfl, fun _ => rfl⟩
  · rw [hf]
    exact eatTags_writtenName hname hst hmt fuel

theorem eatName_writtenName (hname : ¬ HasMarker name) {stags mtags : List TagText}
    (hst : stags.length ≤ maxTags) (hmt : mtags.length ≤ maxTags) :
    Eats (eatName b sha1Hex (writtenName name stags mtags))
      ⟨name, stags.map TagText.tag, mtags.map TagText.tag, some 0⟩
      (∀ t ∈ stags ++ mtags, t.Readable) :=
  eatTags_writtenName_length hname hst hmt

end

end Reconnoiter
