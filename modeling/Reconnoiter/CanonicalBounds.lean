import Reconnoiter.BoundedWriter
import Reconnoiter.CanonicalMeaning

/-! How much `noit_metric_canonicalize_ex` writes: into its work buffer, and of
that into the output. The room for a block of tags is counted in the output,
from behind its opening marker; the markers and the brackets are not counted. -/

namespace Reconnoiter

def tagsCanonicalWritten (b : Base64) : List Bytes → Nat → Nat
  | [], _ => 0
  | tag :: tags, tagnmlen =>
    match canonicalTag b true tag with
    | .error _ => 0
    | .ok text =>
      if tagnmlen < text.length then 0
      else if tags = [] then text.length
      else if tagnmlen - text.length ≤ 0 then text.length
      else text.length + 1 + tagsCanonicalWritten b tags (tagnmlen - text.length - 1)

def blockWritten (b : Base64) (outputLen : Nat) (opening closing : Bytes) (tags : List Bytes)
    (used : Nat) : Nat :=
  if tags = [] then used
  else
    let used := used + opening.length
    let room := subSize outputLen used
    let written := used + tagsCanonicalWritten b tags room
    if (tagsCanonical b true tags room).isSome then written + closing.length else written

def workWritten (b : Base64) (q : QSort (id : Bytes → Bytes)) (sha1Hex : Bytes → Bytes)
    (outputLen : Nat) (input : Bytes) : Nat :=
  if outputLen < input.length then 0
  else if input.count 44 > maxTags then 0
  else
    match eatName b sha1Hex input with
    | .error _ => 0
    | .ok e =>
      if HasMarker e.name then 0
      else
        let stags := sortDedup q (decodeTags b e.stags)
        let mtags := sortDedup q (decodeTags b e.mtags)
        let out := cleanName e.name
        if out.length < 1 then 0
        else
          let used := blockWritten b outputLen stOpen stClose stags out.length
          match writeBlock b outputLen stOpen stClose (-6) stags out with
          | .error _ => used
          | .ok _ => blockWritten b outputLen mtOpen mtClose mtags used

def tagPieces (b : Base64) : List Bytes → List Piece
  | [] => []
  | tag :: tags =>
    match canonicalTag b true tag with
    | .error _ => [.refused]
    | .ok text =>
      .checked text.length :: if tags = [] then [] else .checked 1 :: tagPieces b tags

def blockPieces (b : Base64) (opening closing : Bytes) (tags : List Bytes) : List Piece :=
  if tags = [] then [] else .plain opening.length :: (tagPieces b tags ++ [.plain closing.length])

def namePieces (b : Base64) (q : QSort (id : Bytes → Bytes)) (e : Eaten) : List Piece :=
  .plain (cleanName e.name).length ::
    (blockPieces b stOpen stClose (sortDedup q (decodeTags b e.stags)) ++
      blockPieces b mtOpen mtClose (sortDedup q (decodeTags b e.mtags)))

section

variable {b : Base64}

def RoomLeft (limit used room tags : Nat) : Prop :=
  (used ≤ limit ∧ room = limit - used) ∨ (limit < used ∧ 257 * tags ≤ room)

theorem put_tagPieces {limit room : Nat} {tags : List Bytes} (rest : List Piece) {used : Nat}
    (h : RoomLeft limit used room tags.length) :
    Piece.put limit (tagPieces b tags ++ rest) used =
      match tagsCanonical b true tags room with
      | none => (used + tagsCanonicalWritten b tags room, false)
      | some _ => Piece.put limit rest (used + tagsCanonicalWritten b tags room) := by
  induction tags generalizing used room with
  | nil => rfl
  | cons tag tags ih =>
    rw [tagPieces, tagsCanonical, tagsCanonicalWritten]
    cases htag : canonicalTag b true tag with
    | error e => rfl
    | ok text =>
      have hlen : text.length ≤ 256 := length_encodeTag_le htag
      rw [List.length_cons] at h
      unfold RoomLeft at h
      dsimp only
      rw [List.cons_append, Piece.put]
      by_cases hroom : room < text.length
      · rw [if_pos (by omega)]
        simp only [hroom, if_true, Nat.add_zero]
      rw [if_neg (by omega)]
      by_cases hnil : tags = []
      · simp only [hroom, hnil, if_true, if_false, List.nil_append]
      have hpos := List.length_pos_iff.mpr hnil
      simp only [hroom, hnil, if_false, List.cons_append, Piece.put]
      by_cases hcomma : room - text.length ≤ 0
      · rw [if_pos (by omega)]
        simp only [hcomma, if_true]
      · rw [if_neg (by omega), @ih (room - text.length - 1) (used + text.length + 1)
          (by unfold RoomLeft; omega)]
        simp only [hcomma, if_false]
        cases tagsCanonical b true tags (room - text.length - 1) with
        | none => simp only [Option.map_none, Nat.add_assoc]
        | some more => simp only [Option.map_some, Nat.add_assoc]

def farthest (limit : Nat) : Nat := limit + 1000000

theorem roomLeft_subSize {limit used tags : Nat} (hused : used ≤ farthest limit)
    (htags : tags ≤ maxTags) : RoomLeft limit used (subSize limit used) tags := by
  unfold RoomLeft subSize farthest maxTags at *
  split_ifs with hle
  · exact Or.inl ⟨hle, rfl⟩
  · exact Or.inr ⟨by omega, by omega⟩

theorem length_tagsCanonical_eq {tags : List Bytes} {room : Nat} {text : Bytes}
    (h : tagsCanonical b true tags room = some text) :
    tagsCanonicalWritten b tags room = text.length ∧ text.length ≤ 257 * tags.length := by
  induction tags generalizing room text with
  | nil =>
    obtain rfl := Option.some.inj h
    exact ⟨rfl, le_rfl⟩
  | cons tag tags ih =>
    rw [tagsCanonical] at h
    rw [tagsCanonicalWritten]
    cases htag : canonicalTag b true tag with
    | error e => simp [htag] at h
    | ok first =>
      have hlen : first.length ≤ 256 := length_encodeTag_le htag
      simp only [htag] at h ⊢
      split_ifs at h ⊢ with hroom hnil hcomma
      · obtain rfl := Option.some.inj h
        exact ⟨rfl, by rw [List.length_cons]; omega⟩
      · obtain ⟨more, hmore, rfl⟩ := Option.map_eq_some_iff.mp h
        obtain ⟨hw, hle⟩ := ih hmore
        simp only [List.length_append, List.length_cons]
        omega

theorem put_blockPieces {limit : Nat} {opening closing : Bytes} {tags : List Bytes} {code : Int}
    {out : Bytes} (rest : List Piece) (hused : out.length + opening.length ≤ farthest limit)
    (htags : tags.length ≤ maxTags) :
    Piece.put limit (blockPieces b opening closing tags ++ rest) out.length =
      match writeBlock b limit opening closing code tags out with
      | .error _ => (blockWritten b limit opening closing tags out.length, false)
      | .ok out' => Piece.put limit rest out'.length := by
  unfold blockPieces writeBlock blockWritten
  by_cases hnil : tags = []
  · rw [if_pos hnil, if_pos hnil]
    rfl
  rw [if_neg hnil, if_neg hnil, if_neg hnil, List.cons_append, Piece.put, List.append_assoc,
    put_tagPieces _ (roomLeft_subSize hused htags)]
  simp only [List.length_append]
  cases htext : tagsCanonical b true tags (subSize limit (out.length + opening.length)) with
  | none => rfl
  | some text =>
    obtain ⟨hw, -⟩ := length_tagsCanonical_eq htext
    simp only [hw, List.singleton_append, Piece.put, List.length_append]

theorem length_writeBlock {limit : Nat} {opening closing : Bytes} {tags : List Bytes} {code : Int}
    {out out' : Bytes} (h : writeBlock b limit opening closing code tags out = .ok out') :
    blockWritten b limit opening closing tags out.length = out'.length ∧
      out'.length ≤ out.length + opening.length + 257 * tags.length + closing.length := by
  unfold writeBlock at h
  unfold blockWritten
  by_cases hnil : tags = []
  · rw [if_pos hnil] at h ⊢
    obtain rfl := Except.ok.inj h
    exact ⟨rfl, by omega⟩
  rw [if_neg hnil] at h ⊢
  simp only [List.length_append] at h ⊢
  cases htext : tagsCanonical b true tags (subSize limit (out.length + opening.length)) with
  | none => simp [htext] at h
  | some text =>
    obtain ⟨hw, hle⟩ := length_tagsCanonical_eq htext
    simp only [htext, Except.ok.injEq] at h
    subst h
    simp only [Option.isSome_some, if_true, hw, List.length_append]
    exact ⟨trivial, by omega⟩

end

section

variable {b : Base64} {sha1Hex : Bytes → Bytes}

theorem length_rest_eatUpTags {max : Nat} {input opening closing rest : Bytes} {st st' : TagScan}
    (h : eatUpTags b sha1Hex max input st opening closing = .ok (some rest, st')) :
    rest.length ≤ input.length := by
  unfold eatUpTags at h
  split_ifs at h
  · simp at h
  · simp at h
  split at h
  · simp at h
  · dsimp only at h
    split at h
    · simp at h
    · obtain ⟨hrest, -⟩ := Prod.mk.inj (Except.ok.inj h)
      rw [← Option.some.inj hrest]
      exact List.length_take_le' _ _
    · simp at h

theorem length_name_eatTags {fuel : Nat} {e e' : Eaten} (h : eatTags b sha1Hex fuel e = .ok e') :
    e'.name.length ≤ e.name.length := by
  induction fuel generalizing e with
  | zero => rw [Except.ok.inj h]
  | succ fuel ih =>
    unfold eatTags at h
    split at h
    · simp at h
    · rename_i hst
      exact (ih h).trans (length_rest_eatUpTags hst)
    · split at h
      · simp at h
      · rename_i hmt
        exact (ih h).trans (length_rest_eatUpTags hmt)
      · rw [← Except.ok.inj h]

end

structure IsWritten (b : Base64) (sha1Hex : Bytes → Bytes) (outputLen : Nat) (input : Bytes)
    (e : Eaten) : Prop where
  fits : input.length ≤ outputLen
  commas : input.count 44 ≤ maxTags
  eaten : eatName b sha1Hex input = .ok e
  name : ¬ HasMarker e.name
  clean : cleanName e.name ≠ []

section

variable {b : Base64} {q : QSort (id : Bytes → Bytes)} {sha1Hex : Bytes → Bytes} {outputLen : Nat}
  {input : Bytes} {e : Eaten}

theorem length_sortDedup_decodeTags {tags : List Tag} (h : tags.length ≤ maxTags) :
    (sortDedup q (decodeTags b tags)).length ≤ maxTags := by
  refine (sortDedup_subperm q _).length_le.trans ?_
  rw [decodeTags, List.length_map]
  exact h

theorem IsWritten.put_eq (h : IsWritten b sha1Hex outputLen input e) :
    workWritten b q sha1Hex outputLen input = (Piece.put outputLen (namePieces b q e) 0).1 ∧
      ((∃ c, canonicalize b q sha1Hex outputLen input = .ok c ∧
          c.length = (Piece.put outputLen (namePieces b q e) 0).1) ↔
        (Piece.put outputLen (namePieces b q e) 0).2 = true ∧
          (Piece.put outputLen (namePieces b q e) 0).1 < maxMetricTaggedName) ∧
      ∀ c, canonicalize b q sha1Hex outputLen input = .ok c →
        c.length = (Piece.put outputLen (namePieces b q e) 0).1 := by
  have hpos := List.length_pos_iff.mpr h.clean
  have hname : (cleanName e.name).length ≤ outputLen :=
    ((length_cleanName_le _).trans (length_name_eatTags h.eaten)).trans h.fits
  obtain ⟨hs, hm⟩ := length_eatTags (Nat.zero_le _) (Nat.zero_le _) h.eaten
  have hs' := @length_sortDedup_decodeTags b q _ hs
  have hm' := @length_sortDedup_decodeTags b q _ hm
  have hst := @put_blockPieces b outputLen stOpen stClose _ (-6) (cleanName e.name)
    (blockPieces b mtOpen mtClose (sortDedup q (decodeTags b e.mtags)))
    (by simp only [farthest, stOpen, List.length_cons, List.length_nil]; omega) hs'
  have hput : Piece.put outputLen (namePieces b q e) 0 = Piece.put outputLen
      (blockPieces b stOpen stClose (sortDedup q (decodeTags b e.stags)) ++
        blockPieces b mtOpen mtClose (sortDedup q (decodeTags b e.mtags)))
      (cleanName e.name).length := by
    rw [namePieces, Piece.put, Nat.zero_add]
  unfold workWritten canonicalize canonicalizeEx
  rw [if_neg (Nat.not_lt.mpr h.fits), if_neg (Nat.not_lt.mpr h.commas), h.eaten,
    if_neg (Nat.not_lt.mpr h.fits), if_neg (Nat.not_lt.mpr h.commas)]
  simp only [bind, Except.bind, if_true, h.name, if_false]
  rw [if_neg (by omega), if_neg (by omega), hput, hst]
  cases hfirst : writeBlock b outputLen stOpen stClose (-6) (sortDedup q (decodeTags b e.stags))
      (cleanName e.name) with
  | error f => simp
  | ok out =>
    obtain ⟨hout, hle⟩ := length_writeBlock hfirst
    have hmt := @put_blockPieces b outputLen mtOpen mtClose _ (-7) out []
      (by
        simp only [farthest, maxTags, stOpen, stClose, mtOpen, List.length_cons,
          List.length_nil] at hs' hle ⊢
        omega) hm'
    rw [List.append_nil] at hmt
    simp only [hmt, hout]
    cases hsecond : writeBlock b outputLen mtOpen mtClose (-7)
        (sortDedup q (decodeTags b e.mtags)) out with
    | error f => simp
    | ok out' =>
      obtain ⟨hout', -⟩ := length_writeBlock hsecond
      simp only [hout', Piece.put, true_and]
      by_cases hlong : out'.length ≥ maxMetricTaggedName
      · simp [hlong]
      · simp [hlong, Nat.lt_of_not_le hlong]

end

/-- Nothing passes the output or the work buffer unnoticed: a tag or a comma is
the first piece to pass the output, a tag cannot be written, or there is room
for all pieces. -/
def StaysInside (outputLen : Nat) (nullTerm : Bool) (ps : List Piece) : Prop :=
  Piece.Stops outputLen maxMetricTaggedName ps ∨ Piece.Refuses maxMetricTaggedName ps ∨
    (.refused ∉ ps ∧ Piece.total ps ≤ maxMetricTaggedName ∧
      (Piece.total ps < maxMetricTaggedName →
        Piece.total ps ≤ outputLen ∧ (nullTerm = true → Piece.total ps < outputLen)))

theorem not_isWritten {b : Base64} {q : QSort (id : Bytes → Bytes)} {sha1Hex : Bytes → Bytes}
    {outputLen : Nat} {input : Bytes} (h : ∀ e, ¬ IsWritten b sha1Hex outputLen input e) :
    (∀ c, canonicalize b q sha1Hex outputLen input ≠ .ok c) ∧
      workWritten b q sha1Hex outputLen input = 0 := by
  unfold canonicalize canonicalizeEx workWritten
  by_cases hfits : outputLen < input.length
  · simp [hfits]
  rw [if_neg hfits, if_neg hfits]
  by_cases hcommas : input.count 44 > maxTags
  · simp [hcommas]
  rw [if_neg hcommas, if_neg hcommas]
  cases he : eatName b sha1Hex input with
  | error f => simp [bind, Except.bind]
  | ok e =>
    by_cases hmark : HasMarker e.name
    · simp [bind, Except.bind, hmark]
    · have hclean : cleanName e.name = [] := by
        by_contra hne
        exact h e ⟨Nat.not_lt.mp hfits, Nat.not_lt.mp hcommas, he, hmark, hne⟩
      simp [bind, Except.bind, hmark, hclean]

/-- The returned length and the use of the work buffer stay within their bounds
exactly when no marker, bracket or terminator is what passes them. -/
theorem canonicalize_bounds_iff (b : Base64) (q : QSort (id : Bytes → Bytes))
    (sha1Hex : Bytes → Bytes) (nullTerm : Bool) (outputLen : Nat) (input : Bytes) :
    ((∀ c, canonicalize b q sha1Hex outputLen input = .ok c →
        c.length ≤ outputLen ∧ (nullTerm = true → c.length < outputLen)) ∧
      workWritten b q sha1Hex outputLen input ≤ maxMetricTaggedName) ↔
    ∀ e, IsWritten b sha1Hex outputLen input e →
      StaysInside outputLen nullTerm (namePieces b q e) := by
  by_cases hw : ∃ e, IsWritten b sha1Hex outputLen input e
  swap
  · rw [not_exists] at hw
    obtain ⟨hnone, hzero⟩ := @not_isWritten b q sha1Hex outputLen input hw
    refine iff_of_true ⟨fun c hc => absurd hc (hnone c), by omega⟩ fun e he => absurd he (hw e)
  obtain ⟨e, he⟩ := hw
  obtain ⟨hwork, hok, hlen⟩ := @IsWritten.put_eq b q sha1Hex outputLen input e he
  have honly : (∀ e', IsWritten b sha1Hex outputLen input e' →
      StaysInside outputLen nullTerm (namePieces b q e')) ↔
        StaysInside outputLen nullTerm (namePieces b q e) := by
    refine ⟨fun h => h e he, fun h e' he' => ?_⟩
    obtain rfl : e = e' := Except.ok.inj (he.eaten.symm.trans he'.eaten)
    exact h
  rw [honly, StaysInside, hwork,
    ← Piece.put_bounded_iff outputLen maxMetricTaggedName
      (fun n => n ≤ outputLen ∧ (nullTerm = true → n < outputLen))]
  constructor
  · rintro ⟨hret, hcap⟩
    refine ⟨hcap, fun hall hlt => ?_⟩
    obtain ⟨c, hc, hl⟩ := hok.mpr ⟨hall, hlt⟩
    rw [← hl]
    exact hret c hc
  · rintro ⟨hcap, hgood⟩
    refine ⟨fun c hc => ?_, hcap⟩
    have hl := hlen c hc
    obtain ⟨hall, hlt⟩ := hok.mp ⟨c, hc, hl⟩
    rw [hl]
    exact hgood hall hlt

theorem eatName_twoKeys {b : Base64} {sha1Hex : Bytes → Bytes} {name : Bytes}
    (hname : ¬ HasMarker name) :
    eatName b sha1Hex (name ++ stOpen ++ ([97, 44, 98] ++ stClose)) =
      .ok ⟨name, [⟨[97], 1⟩, ⟨[98], 1⟩], [], some 0⟩ := by
  have hblock := @eatUpTags_block b sha1Hex maxTags ⟨[], some 0⟩ name [97, 44, 98] 124 93 [83, 84, 91]
    (by decide) (by decide)
  have hbuild : buildTags b sha1Hex maxTags [97, 44, 98] ⟨[], some 0⟩ =
      .ok (true, ⟨[⟨[97], 1⟩, ⟨[98], 1⟩], some 0⟩) := rfl
  obtain ⟨fuel, hf⟩ : ∃ fuel, (name ++ stOpen ++ ([97, 44, 98] ++ stClose)).length = fuel + 1 :=
    ⟨_, by simp only [List.length_append, stClose, List.length_singleton]; rfl⟩
  rw [hbuild] at hblock
  rw [eatName, hf, eatTags]
  dsimp only
  rw [stOpen, stClose, hblock]
  exact eatTags_name hname fuel

theorem cleanName_replicate (n : Nat) :
    cleanName (List.replicate (n + 1) 109) = List.replicate (n + 1) 109 := by
  have hmap : (List.replicate n (109 : UInt8)).map cleanChar = List.replicate n 109 := by
    rw [List.map_replicate]
    rfl
  have hdrop : (List.replicate n (109 : UInt8)).rdropWhile (· == 32) = List.replicate n 109 := by
    cases n with
    | zero => rfl
    | succ n =>
      rw [List.replicate_succ', List.rdropWhile_concat_neg _ _ _ (by decide)]
  rw [List.replicate_succ, cleanName, List.dropWhile_cons_of_neg (by decide), List.map_cons, hmap]
  dsimp only
  rw [hdrop]
  rfl

theorem canonicalize_overruns :
    canonicalize standardBase64 (insertionQSort id) (fun _ => []) 8
      [109, 124, 83, 84, 91, 97, 97, 93] = .ok [109, 124, 83, 84, 91, 97, 97, 58, 93] ∧
    workWritten standardBase64 (insertionQSort id) (fun _ => []) 4096
      (List.replicate 4087 109 ++ stOpen ++ ([97, 44, 98] ++ stClose)) = 4097 := by
  refine ⟨by decide +kernel, ?_⟩
  have hbar : (124 : UInt8) ∉ List.replicate 4087 (109 : UInt8) := by
    intro h
    exact absurd (List.eq_of_mem_replicate h) (by decide)
  have hname : ¬ HasMarker (List.replicate 4087 109) := by
    rintro (h | h)
    · exact hbar (h.subset (by decide))
    · exact hbar (h.subset (by decide))
  have hcomma : (List.replicate 4087 (109 : UInt8) ++ stOpen ++ ([97, 44, 98] ++ stClose)).count 44 = 1 := by
    rw [List.count_append, List.count_append, List.count_replicate]
    decide
  have hlen : (List.replicate 4087 (109 : UInt8) ++ stOpen ++ ([97, 44, 98] ++ stClose)).length = 4095 := by
    rw [List.length_append, List.length_append, List.length_replicate]
    rfl
  have hst : decodeTags standardBase64 [⟨[97], 1⟩, ⟨[98], 1⟩] = [[97, 31], [98, 31]] := by decide +kernel
  have hsort : sortDedup (insertionQSort id) [([97, 31] : Bytes), [98, 31]] = [[97, 31], [98, 31]] := by
    decide +kernel
  have hfirst : writeBlock standardBase64 4096 stOpen stClose (-6) [[97, 31], [98, 31]]
      (List.replicate 4087 109) =
        .ok (List.replicate 4087 109 ++ stOpen ++ [97, 58, 44, 98, 58] ++ stClose) := by
    have htext : tagsCanonical standardBase64 true [[97, 31], [98, 31]] (subSize 4096 4091) =
        some [97, 58, 44, 98, 58] := by
      decide +kernel
    rw [writeBlock, if_neg (by simp)]
    simp only [List.length_append, List.length_replicate]
    rw [show 4087 + stOpen.length = 4091 from rfl, htext]
  rw [workWritten, if_neg (by rw [hlen]; decide), if_neg (by rw [hcomma]; decide),
    eatName_twoKeys hname]
  dsimp only
  rw [if_neg hname, cleanName_replicate 4086, List.length_replicate, if_neg (by decide), hst, hsort,
    hfirst]
  decide +kernel

end Reconnoiter
