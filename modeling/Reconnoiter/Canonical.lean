import Reconnoiter.TagBuild
import Reconnoiter.SortDedup

/-! `noit_metric_canonicalize_ex`: tag blocks are eaten from the end of a metric
name, their tags are decoded, sorted and written back behind the cleaned name. -/

namespace Reconnoiter

/-- The bytes `|ST[`. -/
def stOpen : Bytes := [124, 83, 84, 91]

def stClose : Bytes := [93]

/-- The bytes `|MT{`. -/
def mtOpen : Bytes := [124, 77, 84, 123]

def mtClose : Bytes := [125]

def blockStart (opening : Bytes) (slen : Nat) : Bytes → Option Nat
  | [] => none
  | c :: rest =>
    match blockStart opening slen rest with
    | some i => some (i + 1)
    | none =>
      if opening.length + slen ≤ (c :: rest).length ∧ opening <+: c :: rest then some 0 else none

/-- What is left of the input when a block was eaten, and the tags. A block that
cannot be read may leave some of its tags behind. -/
def eatUpTags (b : Base64) (sha1Hex : Bytes → Bytes) (max : Nat) (input : Bytes) (st : TagScan)
    (opening closing : Bytes) : Except Fault (Option Bytes × TagScan) :=
  if input.length < closing.length + opening.length then .ok (none, st)
  else if input.drop (input.length - closing.length) ≠ closing then .ok (none, st)
  else
    match blockStart opening closing.length input with
    | none => .ok (none, st)
    | some start =>
      let len := input.length - (start + opening.length) - closing.length
      match buildTags b sha1Hex max ((input.drop (start + opening.length)).take len) st with
      | .error e => .error e
      | .ok (true, st) => .ok (some (input.take start), st)
      | .ok (false, st) => .ok (none, st)

structure Eaten where
  name : Bytes
  stags : List Tag
  mtags : List Tag
  repl : Option Nat
  deriving DecidableEq, Repr

/-- Blocks are eaten as long as one of either kind ends the name; each shortens
it, so its length is fuel enough. -/
def eatTags (b : Base64) (sha1Hex : Bytes → Bytes) : Nat → Eaten → Except Fault Eaten
  | 0, e => .ok e
  | fuel + 1, e =>
    match eatUpTags b sha1Hex maxTags e.name ⟨e.stags, e.repl⟩ stOpen stClose with
    | .error f => .error f
    | .ok (some name, st) => eatTags b sha1Hex fuel ⟨name, st.tags, e.mtags, st.repl⟩
    | .ok (none, st) =>
      match eatUpTags b sha1Hex maxTags e.name ⟨e.mtags, st.repl⟩ mtOpen mtClose with
      | .error f => .error f
      | .ok (some name, mt) => eatTags b sha1Hex fuel ⟨name, st.tags, mt.tags, mt.repl⟩
      | .ok (none, mt) => .ok ⟨e.name, st.tags, mt.tags, mt.repl⟩

def eatName (b : Base64) (sha1Hex : Bytes → Bytes) (input : Bytes) : Except Fault Eaten :=
  eatTags b sha1Hex input.length ⟨input, [], [], some 0⟩

def HasMarker (name : Bytes) : Prop := stOpen <:+: name ∨ mtOpen <:+: name

instance (name : Bytes) : Decidable (HasMarker name) := inferInstanceAs (Decidable (_ ∨ _))

-- A tag with nothing behind its category needs one byte more than its text has
-- for the separator. A tag that does not decode becomes empty.
def decodeTagsOne (b : Base64) (t : Tag) : Bytes :=
  let outputSize := if t.categorySize = t.text.length then t.text.length + 1 else t.text.length
  (decodeTag b outputSize t.text).getD []

def decodeTags (b : Base64) (tags : List Tag) : List Bytes := tags.map (decodeTagsOne b)

def isPrint (c : UInt8) : Bool := 32 ≤ c && c ≤ 126

def isJunk (c : UInt8) : Bool := !isPrint c || isSpace c

def cleanChar (c : UInt8) : UInt8 := if isJunk c then 32 else c

/-- `noit_metric_clean_name`. The first byte is never taken for trailing space. -/
def cleanName (m : Bytes) : Bytes :=
  match (m.dropWhile isJunk).map cleanChar with
  | [] => []
  | c :: rest => c :: rest.rdropWhile (· == 32)

def nameIsClean (m : Bytes) : Bool :=
  m.head?.all (!isJunk ·) && m.getLast?.all (!isJunk ·) && m.all fun c => c == 32 || !isJunk c

def canonicalTag (b : Base64) (alreadyDecoded : Bool) (tag : Bytes) : Except Int Bytes :=
  if alreadyDecoded then encodeTag b maxPairLen tag
  else encodeTag b maxPairLen ((decodeTag b maxPairLen tag).getD [])

def tagsCanonical (b : Base64) (alreadyDecoded : Bool) : List Bytes → Nat → Option Bytes
  | [], _ => some []
  | tag :: tags, tagnmlen =>
    match canonicalTag b alreadyDecoded tag with
    | .error _ => none
    | .ok text =>
      if tagnmlen < text.length then none
      else if tags = [] then some text
      else if tagnmlen - text.length ≤ 0 then none
      else
        (tagsCanonical b alreadyDecoded tags (tagnmlen - text.length - 1)).map (text ++ 44 :: ·)

def maxMetricTaggedName : Nat := 4096

def writeBlock (b : Base64) (outputLen : Nat) (opening closing : Bytes) (code : Int)
    (tags : List Bytes) (out : Bytes) : Except Fault Bytes :=
  if tags = [] then .ok out
  else
    let out := out ++ opening
    match tagsCanonical b true tags (subSize outputLen out.length) with
    | none => .error (.ret code)
    | some text => .ok (out ++ text ++ closing)

def canonicalizeEx (b : Base64) (q : QSort (id : Bytes → Bytes)) (sha1Hex : Bytes → Bytes)
    (includeStreamTags includeMeasurementTags : Bool) (outputLen : Nat) (input : Bytes) :
    Except Fault Bytes :=
  if outputLen < input.length then .error (.ret (-1))
  else if input.count 44 > maxTags then .error (.ret (-3))
  else do
    let e ← eatName b sha1Hex input
    if HasMarker e.name then .error (.ret (-4))
    else
      let stags := sortDedup q (decodeTags b e.stags)
      let mtags := sortDedup q (decodeTags b e.mtags)
      let out := cleanName e.name
      if out.length < 1 then .error (.ret (-5))
      else
        let out ← writeBlock b outputLen stOpen stClose (-6)
          (if includeStreamTags then stags else []) out
        let out ← writeBlock b outputLen mtOpen mtClose (-7)
          (if includeMeasurementTags then mtags else []) out
        if out.length ≥ maxMetricTaggedName then .error (.ret (-8)) else .ok out

def canonicalize (b : Base64) (q : QSort (id : Bytes → Bytes)) (sha1Hex : Bytes → Bytes)
    (outputLen : Nat) (input : Bytes) : Except Fault Bytes :=
  canonicalizeEx b q sha1Hex true true outputLen input

theorem cleanChar_of_not_junk {c : UInt8} (h : isJunk c = false) : cleanChar c = c := by
  simp [cleanChar, h]

theorem cleanChar_eq {c d : UInt8} (hd : d ≠ 32) (h : cleanChar c = d) : c = d := by
  unfold cleanChar at h
  split_ifs at h
  · exact absurd h.symm hd
  · exact h

theorem infix_of_cleanName {opening m : Bytes} (hspace : 32 ∉ opening) (h : opening <:+: cleanName m) :
    opening <:+: m := by
  have hmap : opening <:+: (m.dropWhile isJunk).map cleanChar := by
    unfold cleanName at h
    cases hm : (m.dropWhile isJunk).map cleanChar with
    | nil => simpa [hm] using h
    | cons c rest =>
      rw [hm] at h
      exact h.trans (List.prefix_cons_inj c |>.mpr (List.rdropWhile_prefix _ rest)).isInfix
  obtain ⟨l, hl, rfl⟩ := List.infix_map_iff.mp hmap
  have hfix : l.map cleanChar = l := by
    rw [List.map_congr_left (g := id), List.map_id]
    intro c hc
    have hne : cleanChar c ≠ 32 := fun he => hspace (he ▸ List.mem_map_of_mem hc)
    exact (cleanChar_eq hne rfl).symm
  rw [hfix]
  exact hl.trans (List.dropWhile_suffix _).isInfix

theorem isJunk_cleanChar_iff (c : UInt8) : isJunk (cleanChar c) = isJunk c := by
  unfold cleanChar
  split_ifs with h
  · rw [h]
    decide
  · rfl

theorem cleanChar_idem (c : UInt8) : cleanChar (cleanChar c) = cleanChar c := by
  unfold cleanChar
  split_ifs with h h'
  · rfl
  · rfl
  · rfl

theorem cleanName_cases (m : Bytes) :
    cleanName m = [] ∨ ∃ c rest, cleanName m = c :: rest ∧ isJunk c = false ∧
      (c :: rest).map cleanChar = c :: rest ∧ rest.rdropWhile (· == 32) = rest := by
  unfold cleanName
  cases hd : m.dropWhile isJunk with
  | nil => exact Or.inl rfl
  | cons x l =>
    right
    have hx : isJunk x = false := by
      have hne : m.dropWhile isJunk ≠ [] := by simp [hd]
      have hh := List.head_dropWhile_not isJunk hne
      simpa [hd] using hh
    refine ⟨cleanChar x, (l.map cleanChar).rdropWhile (· == 32), rfl, ?_, ?_, ?_⟩
    · rw [isJunk_cleanChar_iff, hx]
    · rw [List.map_cons, cleanChar_idem]
      congr 1
      rw [List.map_congr_left (g := id), List.map_id]
      intro c hc
      obtain ⟨y, _, rfl⟩ := List.mem_map.mp ((List.rdropWhile_prefix _ _).subset hc)
      exact cleanChar_idem y
    · exact List.rdropWhile_idempotent _ _

theorem cleanName_cons_eq_self_iff (c : UInt8) (rest : Bytes) : cleanName (c :: rest) = c :: rest ↔
    isJunk c = false ∧ (c :: rest).map cleanChar = c :: rest ∧ rest.rdropWhile (· == 32) = rest := by
  constructor
  · intro h
    rcases cleanName_cases (c :: rest) with hnil | ⟨d, l, heq, hjunk, hmap, hdrop⟩
    · rw [h] at hnil
      cases hnil
    · obtain ⟨rfl, rfl⟩ := List.cons.inj (h.symm.trans heq)
      exact ⟨hjunk, hmap, hdrop⟩
  · rintro ⟨hjunk, hmap, hdrop⟩
    rw [cleanName, List.dropWhile_cons_of_neg (by simp [hjunk]), hmap]
    simp only [hdrop]

theorem cleanName_idem (m : Bytes) : cleanName (cleanName m) = cleanName m := by
  rcases cleanName_cases m with h | ⟨c, rest, h, hkept⟩
  · rw [h]
    rfl
  · rw [h]
    exact (cleanName_cons_eq_self_iff c rest).mpr hkept

theorem count_dropWhile_of_not {p : UInt8 → Bool} {x : UInt8} (hx : p x = false) (l : Bytes) :
    (l.dropWhile p).count x = l.count x := by
  have hzero : (l.takeWhile p).count x = 0 := by
    apply List.count_eq_zero_of_not_mem
    intro hm
    have hp := List.mem_takeWhile_imp hm
    rw [hx] at hp
    exact absurd hp (by simp)
  have hsplit := congrArg (List.count x) (List.takeWhile_append_dropWhile (p := p) (l := l))
  rw [List.count_append, hzero, Nat.zero_add] at hsplit
  exact hsplit

theorem count_cleanName {x : UInt8} (hx : isJunk x = false) (m : Bytes) :
    (cleanName m).count x = m.count x := by
  have hspace : x ≠ 32 := by
    rintro rfl
    exact absurd hx (by decide)
  have hmap : ∀ l : Bytes, (l.map cleanChar).count x = l.count x := by
    intro l
    induction l with
    | nil => rfl
    | cons c l ih =>
      have hc : cleanChar c = x ↔ c = x :=
        ⟨cleanChar_eq hspace, fun h => by rw [h, cleanChar_of_not_junk hx]⟩
      simp only [List.map_cons, List.count_cons, ih, beq_iff_eq, hc]
  have hdrop : ∀ l : Bytes, (l.rdropWhile (· == 32)).count x = l.count x := by
    intro l
    rw [List.rdropWhile, List.count_reverse, count_dropWhile_of_not (by simpa using hspace),
      List.count_reverse]
  have hall : (cleanName m).count x = ((m.dropWhile isJunk).map cleanChar).count x := by
    unfold cleanName
    cases (m.dropWhile isJunk).map cleanChar with
    | nil => rfl
    | cons c rest => simp only [List.count_cons, hdrop]
  rw [hall, hmap, count_dropWhile_of_not hx]

theorem length_cleanName_le (m : Bytes) : (cleanName m).length ≤ m.length := by
  have hdrop := (List.dropWhile_suffix (p := isJunk) (l := m)).length_le
  unfold cleanName
  cases hm : (m.dropWhile isJunk).map cleanChar with
  | nil => exact Nat.zero_le _
  | cons c rest =>
    have hlen := congrArg List.length hm
    have hrest := (List.rdropWhile_prefix (· == 32) rest).length_le
    rw [List.length_map, List.length_cons] at hlen
    rw [List.length_cons]
    omega

theorem cleanChar_eq_self_iff (c : UInt8) : cleanChar c = c ↔ c = 32 ∨ isJunk c = false := by
  constructor
  · intro h
    by_cases hjunk : isJunk c = true
    · rw [cleanChar, if_pos hjunk] at h
      exact .inl h.symm
    · exact .inr (Bool.eq_false_iff.mpr hjunk)
  · rintro (rfl | hjunk)
    · decide
    · exact cleanChar_of_not_junk hjunk

theorem not_junk_iff (c : UInt8) : isJunk c = false ↔ cleanChar c = c ∧ c ≠ 32 := by
  rw [cleanChar_eq_self_iff]
  constructor
  · intro hjunk
    exact ⟨.inr hjunk, fun h => absurd hjunk (by rw [h]; decide)⟩
  · rintro ⟨hspace | hjunk, hne⟩
    · exact absurd hspace hne
    · exact hjunk

theorem nameIsClean_singleton (c : UInt8) : nameIsClean [c] = true ↔ isJunk c = false := by
  cases h : isJunk c <;> simp [nameIsClean, h]

theorem nameIsClean_ends (c z : UInt8) (l : Bytes) : nameIsClean (c :: (l ++ [z])) = true ↔
    isJunk c = false ∧ isJunk z = false ∧ ∀ d ∈ l, cleanChar d = d := by
  have hmid : (l.all fun d => d == 32 || !isJunk d) = true ↔ ∀ d ∈ l, cleanChar d = d := by
    simp [cleanChar_eq_self_iff]
  rw [← hmid, nameIsClean, List.head?_cons, ← List.cons_append, List.getLast?_concat]
  cases hc : isJunk c <;> cases hz : isJunk z <;> simp [hc, hz]

/-- The test and the rewriting are written apart and agree on what a clean name is. -/
theorem clean_name_exact (m : Bytes) : (nameIsClean m = true ↔ cleanName m = m) ∧
    nameIsClean (cleanName m) = true ∧ (cleanName m).length ≤ m.length := by
  have hiff : ∀ m : Bytes, nameIsClean m = true ↔ cleanName m = m := by
    intro m
    cases m with
    | nil => exact ⟨fun _ => rfl, fun _ => rfl⟩
    | cons c rest =>
      rw [cleanName_cons_eq_self_iff]
      rcases List.eq_nil_or_concat' rest with rfl | ⟨l, z, rfl⟩
      · rw [nameIsClean_singleton]
        exact ⟨fun h => ⟨h, by simp [cleanChar_of_not_junk h], rfl⟩, fun h => h.1⟩
      · rw [nameIsClean_ends, not_junk_iff z, List.rdropWhile_eq_self_iff]
        have hmap : (c :: (l ++ [z])).map cleanChar = c :: (l ++ [z]) ↔
            cleanChar c = c ∧ (∀ d ∈ l, cleanChar d = d) ∧ cleanChar z = z := by
          rw [← List.map_id (c :: (l ++ [z])), List.map_map, List.map_eq_map_iff]
          simp [or_imp, forall_and]
        rw [hmap]
        constructor
        · rintro ⟨hc, ⟨hz, hspace⟩, hl⟩
          exact ⟨hc, ⟨cleanChar_of_not_junk hc, hl, hz⟩, by simpa using hspace⟩
        · rintro ⟨hc, ⟨-, hl, hz⟩, hlast⟩
          exact ⟨hc, ⟨hz, by simpa using hlast⟩, hl⟩
  exact ⟨hiff m, (hiff _).mpr (cleanName_idem m), length_cleanName_le m⟩

end Reconnoiter
