import Reconnoiter.TagCodec

/-! `noit_metric_tags_parse_one`: the longest tag at the front of a text. -/

namespace Reconnoiter

/-- `noit_metric_tag_t`: the text of `total_size` bytes and the category size,
which is kept in eight bits. -/
structure Tag where
  text : Bytes
  categorySize : Nat
  deriving DecidableEq, Repr

/-- The scan of `tagnm` from position `cur` on, where `rest` is what is left
there; a colon position of zero means that no colon was seen. The result is the
position reached and the colon position. -/
def parseOneLoop (tagnm : Bytes) : Bytes → Nat → Nat → Option (Nat × Nat)
  | [], cur, colon => some (cur, colon)
  | c :: rest, cur, colon =>
    if c = 58 ∧ colon = 0 then
      if cur = 0 then none
      else if !isTaggableKey (tagnm.take cur) then none
      else parseOneLoop tagnm rest (cur + 1) cur
    else if c = 44 then
      let colon := if colon = 0 then cur else colon
      if cur = colon then some (cur, colon)
      else if !(cur > colon) || !isTaggableValue ((tagnm.take cur).drop (colon + 1)) then none
      else some (cur, colon)
    else if cur + 1 = tagnm.length ∧ colon = 0 then
      if !isTaggableKey (tagnm.take (cur + 1)) then none else some (cur + 1, cur + 1)
    else parseOneLoop tagnm rest (cur + 1) colon

/-- What `noit_metric_tags_parse_one` reports besides the pointer to the next
byte, `size` bytes on: a tag too long for a pair is not filled in. -/
structure ParsedTag where
  size : Nat
  tooLong : Bool
  tag : Tag
  deriving DecidableEq, Repr

def parseOne (tagnm : Bytes) : Option ParsedTag :=
  match parseOneLoop tagnm tagnm 0 0 with
  | none => none
  | some (cur, colon) =>
    if colon = 0 then none
    else if cur > maxPairLen then some ⟨cur, true, ⟨[], 0⟩⟩
    else some ⟨cur, false, ⟨tagnm.take cur, (if colon ≥ cur then cur else colon + 1) % 256⟩⟩

theorem parseOneLoop_plain {tagnm t rest : Bytes} {cur : Nat}
    (hlen : cur + (t.length + rest.length) = tagnm.length) (hrest : rest ≠ []) (hk : 58 ∉ t)
    (hc : 44 ∉ t) :
    parseOneLoop tagnm (t ++ rest) cur 0 = parseOneLoop tagnm rest (cur + t.length) 0 := by
  have hpos := List.length_pos_iff.mpr hrest
  induction t generalizing cur with
  | nil => rfl
  | cons x t ih =>
    simp only [List.mem_cons, not_or] at hk hc
    simp only [List.length_cons] at hlen
    have hx : ¬ (x = 58 ∧ 0 = 0) := fun hh => hk.1 hh.1.symm
    rw [List.cons_append, parseOneLoop, if_neg hx, if_neg (Ne.symm hc.1), if_neg (by omega),
      ih (by omega) hk.2 hc.2]
    simp only [List.length_cons, show cur + 1 + t.length = cur + (t.length + 1) by omega]

theorem parseOneLoop_key {tagnm kt rest : Bytes} {cur : Nat}
    (hlen : cur + (kt.length + 1 + rest.length) = tagnm.length) (hk : 58 ∉ kt) (hc : 44 ∉ kt) :
    parseOneLoop tagnm (kt ++ 58 :: rest) cur 0 =
      if cur + kt.length = 0 ∨ isTaggableKey (tagnm.take (cur + kt.length)) = false then none
      else parseOneLoop tagnm rest (cur + kt.length + 1) (cur + kt.length) := by
  rw [parseOneLoop_plain (by simp only [List.length_cons]; omega) (by simp) hk hc, parseOneLoop]
  by_cases hz : cur + kt.length = 0
  · simp [hz]
  · cases hi : isTaggableKey (tagnm.take (cur + kt.length)) <;> simp

theorem parseOneLoop_value {tagnm vt rest : Bytes} {cur colon : Nat} (hcolon : colon ≠ 0)
    (hc : 44 ∉ vt) :
    parseOneLoop tagnm (vt ++ rest) cur colon = parseOneLoop tagnm rest (cur + vt.length) colon := by
  induction vt generalizing cur with
  | nil => rfl
  | cons x vt ih =>
    simp only [List.mem_cons, not_or] at hc
    rw [List.cons_append, parseOneLoop, if_neg (fun h => hcolon h.2), if_neg (Ne.symm hc.1),
      if_neg (fun h => hcolon h.2), ih hc.2]
    simp only [List.length_cons, show cur + 1 + vt.length = cur + (vt.length + 1) by omega]

theorem parseOneLoop_colon {kt vt rest : Bytes} (hk : 58 ∉ kt) (hkc : 44 ∉ kt) (hvc : 44 ∉ vt)
    (hrest : rest = [] ∨ ∃ r, rest = 44 :: r) :
    parseOneLoop ((kt ++ 58 :: vt) ++ rest) ((kt ++ 58 :: vt) ++ rest) 0 0 =
      if kt ≠ [] ∧ isTaggableKey kt = true ∧ (rest = [] ∨ isTaggableValue vt = true) then
        some ((kt ++ 58 :: vt).length, kt.length)
      else none := by
  generalize hfull : (kt ++ 58 :: vt) ++ rest = full
  have hlfull : full.length = kt.length + 1 + (vt ++ rest).length := by
    rw [← hfull]
    simp only [List.length_append, List.length_cons]
    omega
  have hkey : full.take kt.length = kt := by simp [← hfull]
  have hval : (full.take (kt.length + 1 + vt.length)).drop (kt.length + 1) = vt := by
    rw [← hfull, List.take_left' (by simp; omega), List.drop_append]
    simp
  have hlen : (kt ++ 58 :: vt).length = kt.length + 1 + vt.length := by
    simp only [List.length_append, List.length_cons]
    omega
  have hscan := @parseOneLoop_key full kt (vt ++ rest) 0 (by omega) hk hkc
  rw [← List.cons_append, ← List.append_assoc, hfull, Nat.zero_add, hkey] at hscan
  rw [hscan, hlen]
  by_cases hkt : kt = []
  · simp [hkt]
  have hpos : kt.length ≠ 0 := by simpa using hkt
  cases htk : isTaggableKey kt with
  | false => simp
  | true =>
    rw [if_neg (by simp [hkt]), parseOneLoop_value hpos hvc]
    rcases hrest with rfl | ⟨r, rfl⟩
    · rw [if_pos ⟨hkt, rfl, Or.inl rfl⟩]
      rfl
    · rw [parseOneLoop, if_neg (by simp), if_pos rfl, if_neg hpos]
      simp only
      rw [if_neg (by omega), hval]
      cases htv : isTaggableValue vt with
      | false => simp
      | true => rw [if_neg (by simp; omega), if_pos (by simp [hkt])]

theorem parseOne_colon {kt vt rest : Bytes} (hk : 58 ∉ kt) (hkc : 44 ∉ kt) (hvc : 44 ∉ vt)
    (hlen : (kt ++ 58 :: vt).length ≤ maxPairLen) (hrest : rest = [] ∨ ∃ r, rest = 44 :: r) :
    parseOne ((kt ++ 58 :: vt) ++ rest) =
      if kt ≠ [] ∧ isTaggableKey kt = true ∧ (rest = [] ∨ isTaggableValue vt = true) then
        some ⟨(kt ++ 58 :: vt).length, false, ⟨kt ++ 58 :: vt, (kt.length + 1) % 256⟩⟩
      else none := by
  rw [parseOne, parseOneLoop_colon hk hkc hvc hrest]
  split_ifs with hc
  · have hpos := List.length_pos_iff.mpr hc.1
    have hlong : kt.length < (kt ++ 58 :: vt).length := by simp
    dsimp only
    rw [if_neg hpos.ne', if_neg (by omega), if_neg (by omega), List.take_left]
  · rfl

theorem parseOneLoop_piece {done todo rest : Bytes} {p c : Nat} (hcomma : 44 ∉ todo)
    (hcolon : 58 ∉ done) (hrest : rest = [] ∨ ∃ r, rest = 44 :: r)
    (hend : todo = [] → rest = [] → done = [])
    (h : parseOneLoop (done ++ todo ++ rest) (todo ++ rest) done.length 0 = some (p, c)) :
    p = (done ++ todo).length ∧ c = (upTo 58 (done ++ todo)).length ∧
      (58 ∈ todo ∨ todo ≠ [] ∧ rest = [] → isTaggableKey (upTo 58 (done ++ todo)) = true) := by
  induction todo generalizing done with
  | nil =>
    have hup : upTo 58 (done ++ []) = done := by rw [List.append_nil, upTo_eq_self hcolon]
    rw [hup]
    rcases hrest with rfl | ⟨r, rfl⟩
    · obtain rfl := hend rfl rfl
      simp only [List.append_nil, parseOneLoop, List.length_nil, Option.some.injEq, Prod.mk.injEq] at h
      exact ⟨h.1.symm, h.2.symm, by simp⟩
    · rw [List.nil_append, parseOneLoop, if_neg (by simp), if_pos rfl] at h
      simp only [if_true, Option.some.injEq, Prod.mk.injEq] at h
      exact ⟨by rw [List.append_nil, h.1], h.2.symm, by simp⟩
  | cons x todo ih =>
    have hct : 44 ∉ todo := fun hm => hcomma (List.mem_cons_of_mem _ hm)
    have hx44 : x ≠ 44 := fun he => hcomma (by simp [he])
    rw [List.cons_append, parseOneLoop] at h
    by_cases hx : x = 58
    · subst hx
      rw [upTo_append_cons hcolon]
      have htake : (done ++ 58 :: todo ++ rest).take done.length = done := by simp
      rw [if_pos ⟨rfl, rfl⟩, htake] at h
      split_ifs at h with hz hk
      rw [parseOneLoop_value hz hct] at h
      refine ⟨?_, ?_, fun _ => by simpa using hk⟩ <;> rcases hrest with rfl | ⟨r, rfl⟩
      · simp only [parseOneLoop, Option.some.injEq, Prod.mk.injEq] at h
        simp only [List.length_append, List.length_cons]
        omega
      · rw [parseOneLoop, if_neg (by simp), if_pos rfl, if_neg hz] at h
        simp only [List.length_append, List.length_cons]
        simp only at h
        rw [if_neg (by omega)] at h
        split_ifs at h
        simp only [Option.some.injEq, Prod.mk.injEq] at h
        omega
      · simp only [parseOneLoop, Option.some.injEq, Prod.mk.injEq] at h
        exact h.2.symm
      · rw [parseOneLoop, if_neg (by simp), if_pos rfl, if_neg hz] at h
        simp only at h
        rw [if_neg (by omega)] at h
        split_ifs at h
        simp only [Option.some.injEq, Prod.mk.injEq] at h
        exact h.2.symm
    · have hdone : 58 ∉ done ++ [x] := by
        simp only [List.mem_append, List.mem_singleton, not_or]
        exact ⟨hcolon, fun he => hx he.symm⟩
      have hsplit : done ++ x :: todo = done ++ [x] ++ todo := by simp
      rw [hsplit] at h ⊢
      rw [if_neg (fun hh => hx hh.1), if_neg hx44] at h
      by_cases hlast : todo = [] ∧ rest = []
      · obtain ⟨rfl, rfl⟩ := hlast
        have hlen : done.length + 1 = (done ++ [x] ++ [] ++ []).length := by simp
        rw [if_pos ⟨hlen, rfl⟩, hlen, List.take_length] at h
        simp only [List.append_nil] at h ⊢
        rw [upTo_eq_self hdone]
        split_ifs at h with hk
        simp only [Option.some.injEq, Prod.mk.injEq] at h
        exact ⟨h.1.symm, h.2.symm, fun _ => by simpa using hk⟩
      · have hpos : 0 < (todo ++ rest).length := by
          apply List.length_pos_iff.mpr
          simpa using hlast
        have hlen : done.length + 1 ≠ (done ++ [x] ++ todo ++ rest).length := by
          simp only [List.length_append, List.length_singleton] at hpos ⊢
          omega
        rw [if_neg (fun hh => hlen hh.1)] at h
        obtain ⟨hp, hc, hk⟩ := ih hct hdone (fun ht hr => absurd ⟨ht, hr⟩ hlast) (by simpa using h)
        refine ⟨hp, hc, fun hh => hk ?_⟩
        rcases hh with hm | ⟨_, hr⟩
        · exact Or.inl ((List.mem_cons.mp hm).resolve_left fun he => hx he.symm)
        · exact Or.inr ⟨fun ht => hlast ⟨ht, hr⟩, hr⟩

def storedAs (t : Bytes) : Tag :=
  ⟨t, (if 58 ∈ t then (upTo 58 t).length + 1 else t.length) % 256⟩

theorem parseOne_piece {t rest : Bytes} {r : ParsedTag} (hc : 44 ∉ t)
    (hrest : rest = [] ∨ ∃ r, rest = 44 :: r) (h : parseOne (t ++ rest) = some r) :
    t ≠ [] ∧ r.size = t.length ∧
      (58 ∈ t ∨ rest = [] → isTaggableKey (upTo 58 t) = true) ∧
      if maxPairLen < t.length then r.tooLong = true else r.tooLong = false ∧ r.tag = storedAs t := by
  unfold parseOne at h
  split at h
  · exact absurd h (by simp)
  rename_i cur colon he
  obtain ⟨rfl, rfl, hk⟩ := @parseOneLoop_piece [] t rest cur colon hc (by simp) hrest (by simp) he
  rw [List.nil_append] at hk h
  split_ifs at h with hz hlong hcolon
  all_goals
    have hne : t ≠ [] := by
      rintro rfl
      simp [upTo] at hz
    have hk' : 58 ∈ t ∨ rest = [] → isTaggableKey (upTo 58 t) = true :=
      fun hh => hk (hh.imp id fun hr => ⟨hne, hr⟩)
  · obtain rfl := Option.some.inj h
    exact ⟨hne, rfl, hk', by rw [if_pos hlong]⟩
  · have hm : 58 ∉ t := by
      intro hm
      have hl := congrArg List.length (eq_upTo_append_after hm)
      simp only [List.length_append, List.length_cons] at hl
      omega
    obtain rfl := Option.some.inj h
    exact ⟨hne, rfl, hk', by rw [if_neg hlong]; simp [storedAs, hm]⟩
  · have hm : 58 ∈ t := by
      by_contra hm
      rw [upTo_eq_self hm] at hcolon
      omega
    obtain rfl := Option.some.inj h
    exact ⟨hne, rfl, hk', by rw [if_neg hlong]; simp [storedAs, hm]⟩

theorem parseOne_keyOnly {t rest : Bytes} (hne : t ≠ []) (hk : 58 ∉ t) (hc : 44 ∉ t)
    (hlen : t.length ≤ maxPairLen) :
    parseOne (t ++ 44 :: rest) = some ⟨t.length, false, storedAs t⟩ := by
  have hpos := List.length_pos_iff.mpr hne
  have hloop : parseOneLoop (t ++ 44 :: rest) (t ++ 44 :: rest) 0 0 = some (t.length, t.length) := by
    rw [parseOneLoop_plain (by simp) (by simp) hk hc, parseOneLoop, if_neg (by simp), if_pos rfl]
    simp
  rw [parseOne, hloop]
  simp only
  rw [if_neg (by omega), if_neg (by omega), if_pos (le_refl _), List.take_left, storedAs, if_neg hk]

end Reconnoiter
