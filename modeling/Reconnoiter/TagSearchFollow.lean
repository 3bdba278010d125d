import Reconnoiter.TagSearchReparse

/-! What a match of a tag search reads of the text behind it. A regular expression must be
followed at once by the end of its argument; and a pattern that only begins like one is looked
through for its end as far as the query goes. -/

namespace Reconnoiter

variable {e : SearchEnv} {part : MatchPart}

/-- A regular expression that is open in front of s is closed in s, and the argument ends right behind
it. -/
def slashEnds (part : MatchPart) (s : Bytes) : Bool :=
  (regexBody s).any fun r => r.2.head?.any (endsRegex part)

def regexRead (e : SearchEnv) (part : MatchPart) (query : Bytes) : Bool :=
  (matchHead e query).any fun head => (head.regex part).isSome

/-- The last part of a match is read as a regular expression. -/
def endsInRegex (e : SearchEnv) (query : Bytes) : Bool :=
  match matchInit e .cat query with
  | none => false
  | some (_, rest) =>
    match expect 58 rest with
    | some s => regexRead e .name s
    | none => regexRead e .cat query

section Bodies

variable {c : UInt8} {s s' body rest w : Bytes}

theorem regexBody_slash (s : Bytes) : regexBody (47 :: s) = some ([], s) := by
  cases s <;> rfl

theorem regexBody_escape (s : Bytes) (d : UInt8) :
    regexBody (92 :: d :: s) = (regexBody s).map fun r => (92 :: d :: r.1, r.2) := by
  rw [regexBody, if_neg (by decide), if_pos rfl]

theorem regexBody_cons (hslash : c ≠ 47) (hback : c ≠ 92) (s : Bytes) :
    regexBody (c :: s) = (regexBody s).map fun r => (c :: r.1, r.2) := by
  cases s with
  | nil => simp [regexBody, hslash]
  | cons d s => rw [regexBody, if_neg hslash, if_neg hback]

theorem regexBody_closed (h : regexBody s = some (body, rest)) :
    s = body ++ 47 :: rest ∧ ∀ w, regexBody (body ++ 47 :: w) = some (body, w) := by
  fun_induction regexBody s generalizing body with
  | case1 => cases h
  | case2 =>
    cases h
    exact ⟨rfl, regexBody_slash⟩
  | case3 => cases h
  | case4 d s =>
    cases h
    exact ⟨rfl, regexBody_slash⟩
  | case5 d s _ ih =>
    obtain ⟨r, hr, heq⟩ := Option.map_eq_some_iff.mp h
    obtain ⟨rfl, rfl⟩ := Prod.mk.inj heq
    obtain ⟨hs, hclosed⟩ := ih hr
    refine ⟨by rw [hs]; rfl, fun w => ?_⟩
    rw [List.cons_append, List.cons_append, regexBody_escape, hclosed, Option.map_some]
  | case6 c d s hslash hback ih =>
    obtain ⟨r, hr, heq⟩ := Option.map_eq_some_iff.mp h
    obtain ⟨rfl, rfl⟩ := Prod.mk.inj heq
    obtain ⟨hs, hclosed⟩ := ih hr
    refine ⟨by rw [hs]; rfl, fun w => ?_⟩
    rw [List.cons_append, regexBody_cons hslash hback, hclosed, Option.map_some]

theorem quotedBody_quote (s : Bytes) : quotedBody (34 :: s) = some ([], s) := by
  cases s <;> rfl

theorem quotedBody_closed (h : quotedBody s = some (body, rest)) (w : Bytes) :
    quotedBody (body ++ 34 :: w) = some (body, w) := by
  fun_induction quotedBody s generalizing body with
  | case1 => cases h
  | case2 =>
    cases h
    exact quotedBody_quote w
  | case3 => cases h
  | case4 d s =>
    cases h
    exact quotedBody_quote w
  | case5 d s hescape _ ih =>
    obtain ⟨r, hr, heq⟩ := Option.map_eq_some_iff.mp h
    obtain ⟨rfl, rfl⟩ := Prod.mk.inj heq
    rw [List.cons_append, List.cons_append, quotedBody, if_neg (by decide), if_pos rfl, if_pos hescape, ih hr,
      Option.map_some]
  | case6 => cases h
  | case7 c d s hquote hback ih =>
    obtain ⟨r, hr, heq⟩ := Option.map_eq_some_iff.mp h
    obtain ⟨rfl, rfl⟩ := Prod.mk.inj heq
    obtain ⟨x, t, hcons⟩ : ∃ x t, r.1 ++ 34 :: w = x :: t := List.exists_cons_of_ne_nil (by simp)
    rw [List.cons_append, hcons, quotedBody, if_neg hquote, if_neg hback, ← hcons, ih hr, Option.map_some]

end Bodies

def Blanks (s : Bytes) : Prop := ∀ c ∈ s, isSpace c = true

theorem isSpace_cases {c : UInt8} (h : isSpace c = true) :
    c = 32 ∨ c = 9 ∨ c = 10 ∨ c = 11 ∨ c = 12 ∨ c = 13 := by
  simp only [isSpace, Bool.or_eq_true, Bool.and_eq_true, decide_eq_true_eq,
    beq_iff_eq, UInt8.le_iff_toNat_le] at h
  simp only [← UInt8.toNat_inj] at h ⊢
  simp only [UInt8.reduceToNat] at h ⊢
  omega

theorem isSpace_not_inPattern {c : UInt8} (h : isSpace c = true) (part : MatchPart) :
    inPattern part c = false := by
  rcases isSpace_cases h with rfl | rfl | rfl | rfl | rfl | rfl <;> cases part <;> decide

theorem isSpace_ne {c : UInt8} (h : isSpace c = true) :
    c ≠ 41 ∧ c ≠ 44 ∧ c ≠ 47 ∧ c ≠ 58 ∧ c ≠ 91 ∧ c ≠ 92 := by
  rcases isSpace_cases h with rfl | rfl | rfl | rfl | rfl | rfl <;> decide

theorem not_endsRegex_blank {c : UInt8} (h : isSpace c = true) : endsRegex part c = false := by
  obtain ⟨hclose, hcomma, -, hcolon, -⟩ := isSpace_ne h
  simp [endsRegex, hclose, hcomma, hcolon]

/-- From no byte of the one text, nor from behind it, is a regular expression found in the other that is
not found in the one. -/
structure Alike (s s' : Bytes) : Prop where
  here : ∀ part, slashEnds part s = false → slashEnds part s' = false
  behind : ∀ part, slashEnds part (s.drop 1) = false → slashEnds part (s'.drop 1) = false
  head : ∀ part, s.head?.any (endsRegex part) = false → s'.head?.any (endsRegex part) = false

section Alike

variable {c : UInt8} {s s' blanks : Bytes}

theorem slashEnds_slash : slashEnds part (47 :: s) = s.head?.any (endsRegex part) := by
  rw [slashEnds, regexBody_slash, Option.any_some]

theorem slashEnds_escape : slashEnds part (92 :: s) = slashEnds part (s.drop 1) := by
  cases s with
  | nil => rfl
  | cons d s =>
    rw [slashEnds, regexBody_escape, Option.any_map]
    rfl

theorem slashEnds_cons (hslash : c ≠ 47) (hback : c ≠ 92) : slashEnds part (c :: s) = slashEnds part s := by
  rw [slashEnds, regexBody_cons hslash hback, Option.any_map]
  rfl

theorem slashEnds_blanks (h : Blanks blanks) : slashEnds part (blanks ++ s) = slashEnds part s := by
  induction blanks with
  | nil => rfl
  | cons c blanks ih =>
    obtain ⟨hc, hblanks⟩ := List.forall_mem_cons.mp h
    obtain ⟨-, -, hslash, -, -, hback⟩ := isSpace_ne hc
    rw [List.cons_append, slashEnds_cons hslash hback, ih hblanks]

theorem Alike.refl (s : Bytes) : Alike s s := ⟨fun _ h => h, fun _ h => h, fun _ h => h⟩

theorem Alike.cons (h : Alike s s') (c : UInt8) : Alike (c :: s) (c :: s') := by
  refine ⟨fun part => ?_, h.here, fun _ hc => hc⟩
  by_cases hslash : c = 47
  · subst hslash
    rw [slashEnds_slash, slashEnds_slash]
    exact h.head part
  by_cases hback : c = 92
  · subst hback
    rw [slashEnds_escape, slashEnds_escape]
    exact h.behind part
  rw [slashEnds_cons hslash hback, slashEnds_cons hslash hback]
  exact h.here part

theorem Alike.append (h : Alike s s') (t : Bytes) : Alike (t ++ s) (t ++ s') := by
  induction t with
  | nil => exact h
  | cons c t ih => exact ih.cons c

theorem Alike.before (h : Alike (c :: s) (c :: s')) (hc : c = 44 ∨ c = 41) (hblanks : Blanks blanks) :
    Alike (c :: s) (blanks ++ c :: s') := by
  have hplain : c ≠ 47 ∧ c ≠ 92 := by
    rcases hc with rfl | rfl <;> decide
  refine ⟨fun part => ?_, fun part => ?_, fun part hend => ?_⟩
  · rw [slashEnds_blanks hblanks]
    exact h.here part
  · cases blanks with
    | nil => exact h.behind part
    | cons d blanks =>
      rw [List.cons_append, List.drop_one, List.drop_one, List.tail_cons, List.tail_cons,
        slashEnds_blanks (List.forall_mem_cons.mp hblanks).2, ← slashEnds_cons hplain.1 hplain.2]
      exact h.here part
  · have hends : endsRegex part c = true := by
      rcases hc with rfl | rfl <;> cases part <;> rfl
    simp [hends] at hend

theorem Alike.behindOpen (h : Alike s s') (hc : c = 40 ∨ c = 44) (hblanks : Blanks blanks) :
    Alike (c :: s) (c :: (blanks ++ s')) := by
  have hplain : c ≠ 47 ∧ c ≠ 92 := by
    rcases hc with rfl | rfl <;> decide
  refine ⟨fun part => ?_, fun part => ?_, fun _ hend => hend⟩
  · rw [slashEnds_cons hplain.1 hplain.2, slashEnds_cons hplain.1 hplain.2, slashEnds_blanks hblanks]
    exact h.here part
  · rw [List.drop_one, List.drop_one, List.tail_cons, List.tail_cons, slashEnds_blanks hblanks]
    exact h.here part

end Alike

/-- What follows cannot be read as more of a pattern. -/
def PatternEnd (part : MatchPart) (w : Bytes) : Prop := ∀ c ∈ w.head?, inPattern part c = false ∧ c ≠ 91

section Follow

variable {x y w w' r : Bytes} {head : MatchHead} {p : VarPattern}

theorem PatternEnd.head_ne (hw : PatternEnd part w) :
    w.head? ≠ some 98 ∧ w.head? ≠ some 33 ∧ w.head? ≠ some 34 ∧
    w.head? ≠ some 47 ∧ w.head? ≠ some 91 := by
  refine ⟨?_, ?_, ?_, ?_, ?_⟩
  all_goals
    intro h
    have hc := hw _ h
    revert hc
    cases part <;> decide

theorem isPrefixOf_follow {l : Bytes} (h : ∀ d ∈ l, w.head? ≠ some d) (x : Bytes) :
    l.isPrefixOf (x ++ w) = l.isPrefixOf x := by
  induction l generalizing x with
  | nil => rfl
  | cons d l ih =>
    rw [List.forall_mem_cons] at h
    cases x with
    | nil =>
      cases w with
      | nil => rfl
      | cons c w =>
        have hdc : d ≠ c := fun heq => h.1 (by rw [heq]; rfl)
        simp [List.isPrefixOf, hdc]
    | cons c x => simp only [List.cons_append, List.isPrefixOf, ih h.2]

theorem matchHead_follow (h : matchHead e (x ++ w) = some head) (hlen : w.length ≤ head.query.length)
    (hw : PatternEnd part w) : ∃ y, head.query = y ++ w ∧
      ∀ w', PatternEnd part w' → matchHead e (x ++ w') = some { head with query := y ++ w' } := by
  have hheads : ∀ w, PatternEnd part w →
      List.isPrefixOf [98, 33] (x ++ w) = List.isPrefixOf [98, 33] x ∧
      b64Open.isPrefixOf (x ++ w) = b64Open.isPrefixOf x ∧
      List.isPrefixOf [98, 47] (x ++ w) = List.isPrefixOf [98, 47] x ∧
      List.isPrefixOf [98, 91] (x ++ w) = List.isPrefixOf [98, 91] x ∧
      List.isPrefixOf [91] (x ++ w) = List.isPrefixOf [91] x ∧
      List.isPrefixOf [98] (x ++ w) = List.isPrefixOf [98] x := by
    intro w hw
    obtain ⟨h98, h33, h34, h47, h91⟩ := hw.head_ne
    refine ⟨isPrefixOf_follow ?_ x, isPrefixOf_follow ?_ x, isPrefixOf_follow ?_ x, isPrefixOf_follow ?_ x,
      isPrefixOf_follow ?_ x, isPrefixOf_follow ?_ x⟩
    all_goals simp [h98, h33, h34, h47, h91, b64Open]
  obtain ⟨h1, h2, h3, h4, h5, h6⟩ := hheads w hw
  rw [matchHead] at h
  dsimp only at h
  rw [h1, h2, h3, h4, h5, h6] at h
  by_cases halt : (List.isPrefixOf [98, 91] x || List.isPrefixOf [91] x) = true
  · rw [if_pos halt] at h
    by_cases hmem : 93 ∈ x ++ w
    · rw [if_pos hmem, Option.some_inj] at h
      subst h
      -- the bracket is closed before what follows, of which nothing is read
      have hbracket : 93 ∈ x := by
        by_contra hx
        have hupTo : upTo 93 (x ++ w) = x ++ upTo 93 w := by
          rw [upTo, List.takeWhile_append_of_pos]
          · rfl
          · intro c hc
            rw [bne_iff_ne]
            rintro rfl
            exact hx hc
        have hpos := List.length_pos_iff.mpr (List.ne_nil_of_mem ((List.mem_append.mp hmem).resolve_left hx))
        simp only [after, hupTo, List.length_drop, List.length_append] at hlen
        omega
      obtain ⟨x, y, rfl, hx⟩ : ∃ u v, x = u ++ 93 :: v ∧ 93 ∉ u :=
        ⟨_, _, eq_upTo_append_after hbracket, not_mem_upTo _ _⟩
      refine ⟨y, by simp only [List.append_assoc, List.cons_append, after_append_cons hx], fun w' hw' => ?_⟩
      obtain ⟨h1, h2, h3, h4, h5, h6⟩ := hheads w' hw'
      rw [matchHead]
      dsimp only
      rw [h1, h2, h3, h4, h5, h6, if_pos halt, if_pos (by simp)]
      simp only [List.append_assoc, List.cons_append, after_append_cons hx, upTo_append_cons hx]
    · rw [if_neg hmem] at h
      cases h
  rw [if_neg halt] at h
  by_cases hencoded : (List.isPrefixOf [98, 33] x || b64Open.isPrefixOf x ||
    List.isPrefixOf [98, 47] x) = true
  · rw [if_pos hencoded, Option.some_inj] at h
    subst h
    have hx : x ≠ [] := by
      rintro rfl
      cases hencoded
    obtain ⟨c, y, rfl⟩ := List.exists_cons_of_ne_nil hx
    refine ⟨y, rfl, fun w' hw' => ?_⟩
    obtain ⟨h1, h2, h3, h4, h5, h6⟩ := hheads w' hw'
    rw [matchHead]
    dsimp only
    rw [h1, h2, h3, h4, h5, if_neg halt, if_pos hencoded]
    rfl
  · rw [if_neg hencoded, Option.some_inj] at h
    subst h
    refine ⟨x, rfl, fun w' hw' => ?_⟩
    obtain ⟨h1, h2, h3, h4, h5, h6⟩ := hheads w' hw'
    rw [matchHead]
    dsimp only
    rw [h1, h2, h3, h4, h5, if_neg halt, if_neg hencoded]

theorem regex_eq_some {r : Bytes × Bytes} : head.regex part = some r ↔
    head.impl = none ∧ ∃ s, head.query = 47 :: s ∧ regexBody s = some r ∧
      r.2.head?.any (endsRegex part) = true := by
  rw [MatchHead.regex]
  cases himpl : head.impl with
  | some impl => simp
  | none =>
    cases hs : expect 47 head.query with
    | none =>
      have hquery : ∀ s, head.query ≠ 47 :: s := fun s heq => by simp [expect_eq_some.mpr heq] at hs
      simp [hquery]
    | some s =>
      rw [expect_eq_some.mp hs]
      cases hr : regexBody s with
      | none => simp [hr]
      | some r' =>
        by_cases hends : r'.2.head?.any (endsRegex part) = true
        · simp [hr, hends]
          rintro rfl
          exact hends
        · simp [hr, hends]
          rintro rfl
          simpa using hends

theorem expect_follow {c : UInt8} {s : Bytes} (hc : w.head? ≠ some c) (h : expect c (y ++ w) = some s) :
    ∃ z, y = c :: z ∧ s = z ++ w := by
  rw [expect_eq_some] at h
  cases y with
  | nil =>
    rw [List.nil_append] at h
    rw [h] at hc
    exact absurd rfl hc
  | cons d z =>
    obtain ⟨rfl, rfl⟩ := List.cons.inj h
    exact ⟨z, rfl, rfl⟩

theorem encodedText_eq_some {mark : UInt8} {q str : Bytes} (hmark : isTaggableB64Char mark = false) :
    encodedText e part mark q = some (str, r) ↔
      ∃ text x, q = mark :: (text ++ mark :: r) ∧ (∀ c ∈ text, isTaggableB64Char c = true) ∧
        ¬(text = [] ∧ part = .cat) ∧ e.b64.decode text = some x ∧ ¬(x = [] ∧ part = .cat) ∧
          str = upTo 0 x := by
  rw [encodedText, Option.bind_eq_bind, Option.bind_eq_some_iff]
  constructor
  · rintro ⟨s, hs, h⟩
    dsimp only at h
    split_ifs at h with hcat
    obtain ⟨x, hx, h⟩ := Option.bind_eq_some_iff.mp h
    split_ifs at h with hempty
    obtain ⟨rest, hrest, h⟩ := Option.bind_eq_some_iff.mp h
    obtain ⟨rfl, rfl⟩ := Prod.mk.inj (Option.some.inj h)
    refine ⟨s.takeWhile isTaggableB64Char, x, ?_, fun c hc => List.mem_takeWhile_imp hc,
      hcat, hx, hempty, rfl⟩
    have hsplit := List.prefix_iff_eq_append.mp (List.takeWhile_prefix isTaggableB64Char (l := s))
    rw [expect_eq_some.mp hs, ← expect_eq_some.mp hrest, hsplit]
  · rintro ⟨text, x, rfl, htext, hcat, hx, hempty, rfl⟩
    have htake : (text ++ mark :: r).takeWhile isTaggableB64Char = text := by
      rw [List.takeWhile_append_of_pos htext]
      simp [hmark]
    refine ⟨text ++ mark :: r, expect_eq_some.mpr rfl, ?_⟩
    dsimp only
    rw [htake, if_neg hcat, hx, List.drop_left]
    simp [hempty, expect]

theorem encodedText_follow {mark : UInt8} {str : Bytes} (hmark : isTaggableB64Char mark = false)
    (h : encodedText e part mark (y ++ w) = some (str, w)) :
    encodedText e part mark (y ++ w') = some (str, w') := by
  obtain ⟨text, x, hq, hread⟩ := (encodedText_eq_some hmark).mp h
  have hy : y ++ w = mark :: (text ++ [mark]) ++ w := by simpa using hq
  refine (encodedText_eq_some hmark).mpr ⟨text, x, ?_, hread⟩
  rw [List.append_cancel_right hy]
  simp

theorem literalText_follow {str : Bytes} (h : literalText part (y ++ w) = some (str, w))
    (hw : PatternEnd part w)
    (hw' : PatternEnd part w') : literalText part (y ++ w') = some (str, w') := by
  obtain ⟨-, -, h34, -⟩ := hw.head_ne
  obtain ⟨-, -, h34', -⟩ := hw'.head_ne
  rw [literalText] at h ⊢
  cases hs : expect 34 (y ++ w) with
  | some s =>
    rw [hs] at h
    obtain ⟨z, rfl, rfl⟩ := expect_follow h34 hs
    obtain ⟨⟨body, rest⟩, hbody, h⟩ := Option.bind_eq_some_iff.mp h
    dsimp only at h
    split_ifs at h with hempty
    obtain ⟨rfl, rfl⟩ := Prod.mk.inj (Option.some.inj h)
    have hz : z ++ rest = body ++ [34] ++ rest := by simpa using quotedBody_spec hbody
    have hread : quotedBody (z ++ w') = some (body, w') := by
      rw [List.append_cancel_right hz, List.append_assoc]
      exact quotedBody_closed hbody w'
    simp only [expect, List.cons_append, if_true, quotedText, hread, Option.bind_eq_bind, Option.bind_some]
    rw [if_neg hempty]
    rfl
  | none =>
    rw [hs] at h
    obtain ⟨hstr, hrest, hne⟩ := bareText_eq_some h
    have hy : y = str := by
      have hsplit := List.prefix_iff_eq_append.mp (List.takeWhile_prefix (inPattern part) (l := y ++ w))
      rw [← hstr, ← hrest] at hsplit
      exact List.append_cancel_right hsplit.symm
    subst hy
    have hall : ∀ c ∈ y, inPattern part c = true := fun c hc => List.mem_takeWhile_imp (hstr ▸ hc)
    have htake : (y ++ w').takeWhile (inPattern part) = y := by
      rw [List.takeWhile_append_of_pos hall]
      cases w' with
      | nil => simp
      | cons c w' => simp [(hw' c rfl).1]
    have hnone : expect 34 (y ++ w') = none := by
      cases hq : expect 34 (y ++ w') with
      | none => rfl
      | some s =>
        obtain ⟨z, rfl, -⟩ := expect_follow h34' hq
        simp [expect] at hs
    rw [hnone]
    simp only [bareText, htake, List.drop_left]
    exact if_neg fun hc => hne hc.2 hc.1

theorem patternText_follow {str : Bytes}
    (h : patternText e part { head with query := y ++ w } = some (str, w))
    (hw : PatternEnd part w) (hw' : PatternEnd part w') :
    patternText e part { head with query := y ++ w' } = some (str, w') := by
  rw [patternText] at h ⊢
  dsimp only at h ⊢
  by_cases hencoded : head.isEncoded = true
  · rw [if_pos hencoded] at h ⊢
    refine encodedText_follow ?_ h
    split_ifs <;> decide
  · rw [if_neg hencoded] at h ⊢
    exact literalText_follow h hw hw'

theorem matchInit_iff {q : Bytes} : matchInit e part q = some (p, r) ↔ ∃ head, matchHead e q = some head ∧
    ((∃ body, head.regex part = some (body, r) ∧ regexText e head body = some p.str ∧
      e.init .re p.str = true ∧
        p.impl = .re) ∨
      (head.regex part = none ∧ patternText e part head = some (p.str, r) ∧ e.init p.impl p.str = true ∧
        p.impl = head.impl.getD (if 42 ∈ p.str ∨ 63 ∈ p.str then .default else .exact))) := by
  obtain ⟨impl, str⟩ := p
  rw [matchInit, Option.bind_eq_bind, Option.bind_eq_some_iff]
  refine exists_congr fun head => and_congr_right fun _ => ?_
  cases hre : head.regex part with
  | some body =>
    obtain ⟨body, rest⟩ := body
    simp only [Option.bind_eq_bind, Option.bind_eq_some_iff, initPattern_eq_some]
    constructor
    · rintro ⟨str', htext, hinit, hp, rfl⟩
      cases hp
      exact Or.inl ⟨body, rfl, htext, hinit, rfl⟩
    · rintro (⟨body', hbody, htext, hinit, rfl⟩ | ⟨hnone, -⟩)
      · cases hbody
        exact ⟨str, htext, hinit, rfl, rfl⟩
      · cases hnone
  | none =>
    simp only [Option.bind_eq_bind, Option.bind_eq_some_iff]
    constructor
    · rintro ⟨⟨str', rest⟩, htext, hinit⟩
      obtain ⟨hinit', hp, rfl⟩ := initPattern_eq_some.mp hinit
      cases hp
      exact Or.inr ⟨trivial, htext, hinit', rfl⟩
    · rintro (⟨body, hbody, -⟩ | ⟨-, htext, hinit, himpl⟩)
      · cases hbody
      · refine ⟨(str, r), htext, initPattern_eq_some.mpr ⟨?_, ?_, rfl⟩⟩
        · rw [← himpl]
          exact hinit
        · rw [← himpl]

theorem matchInit_head_length (h : matchHead e (x ++ w) = some head)
    (hp : matchInit e part (x ++ w) = some (p, w)) :
    w.length ≤ head.query.length := by
  obtain ⟨head', hhead, ⟨body, hregex, -⟩ | ⟨-, htext, -⟩⟩ := matchInit_iff.mp hp
  all_goals obtain rfl := Option.some.inj (h.symm.trans hhead)
  · exact (regex_length hregex).le
  · exact (patternText_length htext).1

theorem regex_text {body : Bytes} (hquery : head.query = y ++ w) (h : head.regex part = some (body, w)) :
    head.impl = none ∧ y = 47 :: (body ++ [47]) ∧ ∀ w', regexBody (body ++ 47 :: w') = some (body, w') := by
  obtain ⟨himpl, s, hs, hbody, -⟩ := regex_eq_some.mp h
  obtain ⟨rfl, hclosed⟩ := regexBody_closed hbody
  have hy : y ++ w = 47 :: (body ++ [47]) ++ w := by
    rw [← hquery, hs]
    simp
  exact ⟨himpl, List.append_cancel_right hy, hclosed⟩

/-- A pattern is read alike with another text behind it, if that ends it too and closes no regular
expression that was left open. -/
theorem matchInit_follow (h : matchInit e part (x ++ w) = some (p, w)) (hw : PatternEnd part w)
    (hw' : PatternEnd part w') (halike : Alike w w')
    (hre : regexRead e part (x ++ w) = true → w'.head? = w.head?) :
    matchInit e part (x ++ w') = some (p, w') := by
  obtain ⟨head, hhead, hread⟩ := matchInit_iff.mp h
  obtain ⟨y, hquery, hfollow⟩ := matchHead_follow hhead (matchInit_head_length hhead h) hw
  refine matchInit_iff.mpr ⟨_, hfollow w' hw', ?_⟩
  rcases hread with ⟨body, hregex, htext, hinit, himpl⟩ | ⟨hnone, htext, hinit, himpl⟩
  · left
    have hsame : w'.head? = w.head? := hre (by simp [regexRead, hhead, hregex])
    obtain ⟨hplain, rfl, hclosed⟩ := regex_text hquery hregex
    obtain ⟨-, s, -, -, hends⟩ := regex_eq_some.mp hregex
    refine ⟨body, regex_eq_some.mpr ⟨hplain, body ++ 47 :: w', by simp, hclosed w', ?_⟩, htext, hinit, himpl⟩
    dsimp only at hends ⊢
    rw [hsame]
    exact hends
  · right
    refine ⟨?_, patternText_follow ?_ hw hw', hinit, himpl⟩
    · cases hregex : MatchHead.regex part { head with query := y ++ w' } with
      | none => rfl
      | some r =>
        obtain ⟨hplain, s, hs, hbody, hends⟩ := regex_eq_some.mp hregex
        obtain ⟨z, rfl, rfl⟩ := expect_follow hw'.head_ne.2.2.2.1 (expect_eq_some.mpr hs)
        have hbefore : slashEnds part (z ++ w) = false := by
          rw [slashEnds, ← Bool.not_eq_true, Option.any_eq_true]
          rintro ⟨r', hr', hends'⟩
          have : head.regex part = some r' := regex_eq_some.mpr ⟨hplain, z ++ w, hquery, hr', hends'⟩
          rw [hnone] at this
          cases this
        have hafter := (halike.append z).here part hbefore
        rw [slashEnds, hbody, Option.any_some, hends] at hafter
        cases hafter
    · rw [← hquery]
      exact htext

theorem matchInit_blank {p' : VarPattern} (h : matchInit e part (x ++ w) = some (p, w))
    (hw : PatternEnd part w)
    (hre : regexRead e part (x ++ w) = true) {c : UInt8} (hc : isSpace c = true) (hw' : w'.head? = some c)
    (h' : matchInit e part (x ++ w') = some (p', r)) : p' ≠ p := by
  obtain ⟨head, hhead, hread⟩ := matchInit_iff.mp h
  obtain ⟨y, hquery, hfollow⟩ := matchHead_follow hhead (matchInit_head_length hhead h) hw
  have hboundary : PatternEnd part w' := by
    intro d hd
    rw [hw'] at hd
    cases hd
    exact ⟨isSpace_not_inPattern hc part, (isSpace_ne hc).2.2.2.2.1⟩
  rcases hread with ⟨body, hregex, -, -, himpl⟩ | ⟨hnone, -⟩
  · obtain ⟨hplain, rfl, hclosed⟩ := regex_text hquery hregex
    obtain ⟨head', hhead', hread'⟩ := matchInit_iff.mp h'
    obtain rfl := Option.some.inj ((hfollow w' hboundary).symm.trans hhead')
    rcases hread' with ⟨body', hregex', -⟩ | ⟨-, -, -, himpl'⟩
    · obtain ⟨-, s', hs', hbody', hends⟩ := regex_eq_some.mp hregex'
      obtain rfl : body ++ 47 :: w' = s' := by simpa using hs'
      rw [hclosed, Option.some_inj] at hbody'
      obtain ⟨rfl, rfl⟩ := Prod.mk.inj hbody'
      simp [hw', not_endsRegex_blank hc] at hends
    · rintro rfl
      rw [himpl, hplain, Option.getD_none] at himpl'
      split_ifs at himpl'
  · simp [regexRead, hhead, hnone] at hre

theorem matchHead_suffix {q : Bytes} (h : matchHead e q = some head) : head.query <:+ q := by
  rw [matchHead] at h
  dsimp only at h
  split_ifs at h
  · rw [← Option.some.inj h]
    exact List.drop_suffix _ _
  · rw [← Option.some.inj h]
    exact List.drop_suffix _ _
  · rw [← Option.some.inj h]
    exact List.drop_suffix _ _
  · rw [← Option.some.inj h]

theorem matchInit_suffix {q : Bytes} (h : matchInit e part q = some (p, r)) : r <:+ q := by
  obtain ⟨head, hhead, hread⟩ := matchInit_iff.mp h
  refine List.IsSuffix.trans ?_ (matchHead_suffix hhead)
  rcases hread with ⟨body, hregex, -⟩ | ⟨-, htext, -⟩
  · obtain ⟨-, s, hs, hbody, -⟩ := regex_eq_some.mp hregex
    rw [hs, (regexBody_closed hbody).1]
    exact ⟨47 :: (body ++ [47]), by simp⟩
  · rw [patternText] at htext
    split_ifs at htext with hencoded hmark
    · obtain ⟨text, x, hq, -⟩ := (encodedText_eq_some (by decide)).mp htext
      exact ⟨33 :: (text ++ [33]), by simp [hq]⟩
    · obtain ⟨text, x, hq, -⟩ := (encodedText_eq_some (by decide)).mp htext
      exact ⟨34 :: (text ++ [34]), by simp [hq]⟩
    · rw [literalText] at htext
      cases hs : expect 34 head.query with
      | some s =>
        rw [hs] at htext
        obtain ⟨body, hbody, -⟩ := quotedText_eq_some htext
        rw [expect_eq_some.mp hs, quotedBody_spec hbody]
        exact ⟨34 :: (body ++ [34]), by simp⟩
      | none =>
        rw [hs] at htext
        obtain ⟨-, hrest, -⟩ := bareText_eq_some htext
        rw [hrest]
        exact List.drop_suffix _ _

end Follow

/-- What may stand behind an argument: a blank, a comma or a closing bracket. -/
def ArgFollow (v : Bytes) : Prop := ∀ c ∈ v.head?, isSpace c = true ∨ c = 44 ∨ c = 41

section Match

variable {t v v' r : Bytes} {m m' : TagPattern}

theorem ArgFollow.patternEnd (hv : ArgFollow v) (part : MatchPart) : PatternEnd part v := by
  intro c hc
  rcases hv c hc with hblank | rfl | rfl
  · exact ⟨isSpace_not_inPattern hblank part, (isSpace_ne hblank).2.2.2.2.1⟩
  · cases part <;> decide
  · cases part <;> decide

theorem ArgFollow.expect_colon (hv : ArgFollow v) : expect 58 v = none := by
  cases v with
  | nil => rfl
  | cons c v =>
    refine expect_of_head_ne ?_
    rcases hv c rfl with hblank | rfl | rfl
    · exact (isSpace_ne hblank).2.2.2.1
    · decide
    · decide

theorem patternEnd_colon (s : Bytes) : PatternEnd .cat (58 :: s) := by
  intro c hc
  cases hc
  decide

theorem matchParse_cases (h : matchParse e (t ++ v) = some (m, v)) (hv : ArgFollow v) :
    (matchInit e .cat (t ++ v) = some (m.cat, v) ∧ m.name = none ∧
      endsInRegex e (t ++ v) = regexRead e .cat (t ++ v)) ∨
    ∃ x y p, t = x ++ 58 :: y ∧ matchInit e .cat (x ++ 58 :: (y ++ v)) = some (m.cat, 58 :: (y ++ v)) ∧
      matchInit e .name (y ++ v) = some (p, v) ∧ m.name = some p ∧
      endsInRegex e (t ++ v) = regexRead e .name (y ++ v) := by
  obtain ⟨rest, hcat, ⟨hcolon, hname, rfl⟩ | ⟨s, p, rfl, hname, hsome⟩⟩ := matchParse_eq_some.mp h
  · refine Or.inl ⟨hcat, hname, ?_⟩
    rw [endsInRegex, hcat]
    dsimp only
    rw [hv.expect_colon]
  · obtain ⟨y, rfl⟩ := matchInit_suffix hname
    obtain ⟨x, hx⟩ := matchInit_suffix hcat
    have ht : t ++ v = x ++ 58 :: y ++ v := by
      rw [← hx]
      simp
    have ht' := List.append_cancel_right ht
    refine Or.inr ⟨x, y, p, ht', by rw [hx]; exact hcat, hname, hsome, ?_⟩
    rw [endsInRegex, hcat]
    simp [expect]

theorem matchParse_follow (h : matchParse e (t ++ v) = some (m, v)) (hv : ArgFollow v) (hv' : ArgFollow v')
    (halike : Alike v v') (hre : endsInRegex e (t ++ v) = true → v'.head? = v.head?) :
    matchParse e (t ++ v') = some (m, v') := by
  rw [matchParse_eq_some]
  rcases matchParse_cases h hv with ⟨hcat, hname, hregex⟩ | ⟨x, y, p, rfl, hcat, hname, hsome, hregex⟩
  · rw [hregex] at hre
    exact ⟨v', matchInit_follow hcat (hv.patternEnd _) (hv'.patternEnd _) halike hre,
      Or.inl ⟨hv'.expect_colon, hname, rfl⟩⟩
  · rw [hregex] at hre
    refine ⟨58 :: (y ++ v'), ?_, Or.inr ⟨y ++ v', p, rfl, ?_, hsome⟩⟩
    · rw [List.append_assoc]
      exact matchInit_follow hcat (patternEnd_colon _) (patternEnd_colon _)
        ((halike.append y).cons 58) fun _ => rfl
    · exact matchInit_follow hname (hv.patternEnd _) (hv'.patternEnd _) halike hre

theorem matchParse_blank (h : matchParse e (t ++ v) = some (m, v)) (hv : ArgFollow v) (halike : Alike v v')
    (hre : endsInRegex e (t ++ v) = true) {c : UInt8} (hc : isSpace c = true) (hv' : v'.head? = some c)
    (h' : matchParse e (t ++ v') = some (m', r)) : m' ≠ m := by
  rintro rfl
  obtain ⟨rest, hcat', hrest'⟩ := matchParse_eq_some.mp h'
  rcases matchParse_cases h hv with ⟨hcat, -, hregex⟩ | ⟨x, y, p, rfl, hcat, hname, hsome, hregex⟩
  · rw [hregex] at hre
    exact matchInit_blank hcat (hv.patternEnd _) hre hc hv' hcat' rfl
  · rw [hregex] at hre
    have hfollow : matchInit e .cat (x ++ 58 :: (y ++ v')) = some (m'.cat, 58 :: (y ++ v')) :=
      matchInit_follow hcat (patternEnd_colon _) (patternEnd_colon _) ((halike.append y).cons 58) fun _ => rfl
    rw [List.append_assoc, List.cons_append, hfollow] at hcat'
    cases hcat'
    rcases hrest' with ⟨-, hnone, -⟩ | ⟨s, p', hs, hname', hsome'⟩
    · rw [hsome] at hnone
      cases hnone
    · cases hs
      rw [hsome] at hsome'
      cases hsome'
      exact matchInit_blank hname (hv.patternEnd _) hre hc hv' hname' rfl

theorem matchParse_suffix {q : Bytes} (h : matchParse e q = some (m, r)) : r <:+ q := by
  obtain ⟨rest, hcat, ⟨-, -, rfl⟩ | ⟨s, p, rfl, hname, -⟩⟩ := matchParse_eq_some.mp h
  · exact matchInit_suffix hcat
  · exact (matchInit_suffix hname).trans ((List.suffix_cons 58 s).trans (matchInit_suffix hcat))

theorem matchInit_cat_blank {c : UInt8} (hc : isSpace c = true) (s : Bytes) :
    matchInit e .cat (c :: s) = none := by
  have hbare : bareText .cat (c :: s) = none := by
    simp [bareText, isSpace_not_inPattern hc]
  rcases isSpace_cases hc with rfl | rfl | rfl | rfl | rfl | rfl <;>
    simp [matchInit, matchHead, b64Open, MatchHead.regex, patternText, literalText, expect, hbare]

theorem matchParse_head {q : Bytes} (h : matchParse e q = some (m, r)) :
    ∃ c s, q = c :: s ∧ isSpace c = false := by
  obtain ⟨rest, hcat, -⟩ := matchParse_eq_some.mp h
  cases q with
  | nil => exact absurd ((matchInit_length hcat).2 rfl) (by simp)
  | cons c s =>
    refine ⟨c, s, rfl, Bool.eq_false_iff.mpr fun hc => ?_⟩
    rw [matchInit_cat_blank hc] at hcat
    cases hcat

end Match

end Reconnoiter
