import Reconnoiter.TagSearchText

/-! What the parser of tag searches does in one step, how much it consumes, and
which searches it builds. -/

namespace Reconnoiter

variable {e : SearchEnv} {part : MatchPart}

@[simp] theorem expect_eq_some {c : UInt8} {l s : Bytes} : expect c l = some s ↔ l = c :: s := by
  cases l with
  | nil => simp [expect]
  | cons d l => simp [expect]

theorem expect_of_head_ne {c d : UInt8} {s : Bytes} (h : d ≠ c) : expect c (d :: s) = none := by
  simp [expect, h]

theorem quotedBody_spec {s body rest : Bytes} (h : quotedBody s = some (body, rest)) :
    s = body ++ 34 :: rest := by
  fun_induction quotedBody s generalizing body with
  | case1 => cases h
  | case2 => simp_all
  | case3 => cases h
  | case4 d s => simp_all
  | case5 d s _ _ ih =>
    obtain ⟨r, hr, heq⟩ := Option.map_eq_some_iff.mp h
    obtain ⟨rfl, rfl⟩ := Prod.mk.inj heq
    rw [ih hr]
    rfl
  | case6 => cases h
  | case7 c d s _ _ ih =>
    obtain ⟨r, hr, heq⟩ := Option.map_eq_some_iff.mp h
    obtain ⟨rfl, rfl⟩ := Prod.mk.inj heq
    rw [ih hr]
    rfl

theorem length_regexBody {s : Bytes} {r : Bytes × Bytes} (h : regexBody s = some r) :
    r.2.length < s.length := by
  fun_induction regexBody s generalizing r with
  | case1 => cases h
  | case2 => simp [← Option.some.inj h]
  | case3 => cases h
  | case4 d s => simp [← Option.some.inj h]
  | case5 d s _ ih =>
    obtain ⟨r', hr, rfl⟩ := Option.map_eq_some_iff.mp h
    have hlt := ih hr
    simp only [List.length_cons]
    omega
  | case6 c d s _ _ ih =>
    obtain ⟨r', hr, rfl⟩ := Option.map_eq_some_iff.mp h
    have hlt := ih hr
    simp only [List.length_cons] at hlt ⊢
    omega

theorem bareText_eq_some {s str r : Bytes} (h : bareText part s = some (str, r)) :
    str = s.takeWhile (inPattern part) ∧ r = s.drop str.length ∧ (part = .cat → str ≠ []) := by
  unfold bareText at h
  dsimp only at h
  split_ifs at h with hc
  obtain ⟨rfl, rfl⟩ := Prod.mk.inj (Option.some.inj h)
  refine ⟨rfl, rfl, ?_⟩
  intro hp hnil
  exact hc ⟨hnil, hp⟩

theorem quotedText_eq_some {s str r : Bytes} (h : quotedText part s = some (str, r)) :
    ∃ body, quotedBody s = some (body, r) ∧ str = unescapeTagString body := by
  unfold quotedText at h
  obtain ⟨⟨body, rest⟩, hb, h⟩ := Option.bind_eq_some_iff.mp h
  dsimp only at h
  split_ifs at h
  obtain ⟨rfl, rfl⟩ := Prod.mk.inj (Option.some.inj h)
  exact ⟨body, hb, rfl⟩

theorem initPattern_eq_some {impl : MatcherImpl} {str rest r : Bytes} {p : VarPattern} :
    initPattern e impl str rest = some (p, r) ↔
      e.init impl str = true ∧ p = ⟨impl, str⟩ ∧ r = rest := by
  unfold initPattern
  split_ifs with hi
  · simp [hi, eq_comm]
  · simp [hi]

theorem matchInit_cases {q r : Bytes} {p : VarPattern} (h : matchInit e part q = some (p, r)) :
    ∃ head, matchHead e q = some head ∧ e.init p.impl p.str = true ∧
      ((p.impl = .re ∧ ∃ body, head.regex part = some (body, r)) ∨
        (patternText e part head = some (p.str, r) ∧
          p.impl = head.impl.getD (if 42 ∈ p.str ∨ 63 ∈ p.str then .default else .exact))) := by
  unfold matchInit at h
  obtain ⟨head, hhead, h⟩ := Option.bind_eq_some_iff.mp h
  refine ⟨head, hhead, ?_⟩
  dsimp only at h
  split at h
  · rename_i body rest hre
    obtain ⟨str, -, h⟩ := Option.bind_eq_some_iff.mp h
    obtain ⟨hi, rfl, rfl⟩ := initPattern_eq_some.mp h
    exact ⟨hi, Or.inl ⟨rfl, body, hre⟩⟩
  · obtain ⟨⟨str, rest⟩, ht, h⟩ := Option.bind_eq_some_iff.mp h
    obtain ⟨hi, rfl, rfl⟩ := initPattern_eq_some.mp h
    exact ⟨hi, Or.inr ⟨ht, rfl⟩⟩

theorem matchParse_eq_some {q r : Bytes} {m : TagPattern} :
    matchParse e q = some (m, r) ↔ ∃ rest, matchInit e .cat q = some (m.cat, rest) ∧
      ((expect 58 rest = none ∧ m.name = none ∧ r = rest) ∨
        ∃ s p, rest = 58 :: s ∧ matchInit e .name s = some (p, r) ∧ m.name = some p) := by
  obtain ⟨cat, name⟩ := m
  rw [matchParse, Option.bind_eq_bind, Option.bind_eq_some_iff]
  constructor
  · rintro ⟨⟨cat', rest⟩, hc, h⟩
    dsimp only at h
    cases hx : expect 58 rest with
    | none =>
      rw [hx] at h
      obtain ⟨hm, rfl⟩ := Prod.mk.inj (Option.some.inj h)
      obtain ⟨rfl, rfl⟩ := TagPattern.mk.inj hm
      exact ⟨rest, hc, Or.inl ⟨hx, rfl, rfl⟩⟩
    | some s =>
      rw [hx] at h
      obtain ⟨⟨p, rest'⟩, hn, h⟩ := Option.bind_eq_some_iff.mp h
      obtain ⟨hm, rfl⟩ := Prod.mk.inj (Option.some.inj h)
      obtain ⟨rfl, rfl⟩ := TagPattern.mk.inj hm
      exact ⟨rest, hc, Or.inr ⟨s, p, expect_eq_some.mp hx, hn, rfl⟩⟩
  · rintro ⟨rest, hc, ⟨hx, rfl, rfl⟩ | ⟨s, p, rfl, hn, rfl⟩⟩
    · exact ⟨(cat, r), hc, by simp [hx]⟩
    · exact ⟨(cat, 58 :: s), hc, by simp [expect, hn]⟩

/-! One step of the parser. -/

theorem openedOp_eq_some {q s : Bytes} {op : SearchOp} :
    openedOp q = some (op, s) ↔ q = op.text ++ s := by
  constructor
  · intro h
    obtain ⟨op', -, h'⟩ := List.exists_of_findSome?_eq_some h
    split_ifs at h' with hp
    obtain ⟨rfl, rfl⟩ := Prod.mk.inj (Option.some.inj h')
    obtain ⟨t, rfl⟩ := List.isPrefixOf_iff_prefix.mp hp
    rw [List.drop_left]
  · rintro rfl
    cases op <;> simp [openedOp, SearchOp.text, List.isPrefixOf, List.findSome?]

/-- What the parser does on a part of a search, by one constructor for each way it succeeds. -/
inductive PartStep (e : SearchEnv) (n : Nat) (q : Bytes) (allowMatch : Bool) :
    SearchAst TagPattern → Bytes → Prop
  | and {s args r} : q.dropWhile isSpace = SearchOp.and.text ++ s →
      argsParse e n s = some (args, r) → PartStep e n q allowMatch (.and args) r
  | or {s args r} : q.dropWhile isSpace = SearchOp.or.text ++ s →
      argsParse e n s = some (args, r) → PartStep e n q allowMatch (.or args) r
  | hint {s arg hints r} : q.dropWhile isSpace = SearchOp.hint.text ++ s →
      argsParse e n s = some (arg :: hints, r) → PartStep e n q allowMatch (.hint arg hints) r
  | not {s arg r} : q.dropWhile isSpace = SearchOp.not.text ++ s →
      partParse e n (s.dropWhile isSpace) true = some (arg, 41 :: r) →
      PartStep e n q allowMatch (.not arg) r
  | spec {m r} : openedOp (q.dropWhile isSpace) = none → allowMatch = true →
      matchParse e q = some (m, r) → PartStep e n q allowMatch (.spec m) r

theorem partParse_succ {n : Nat} {q r : Bytes} {allowMatch : Bool} {a : SearchAst TagPattern} :
    partParse e (n + 1) q allowMatch = some (a, r) ↔ PartStep e n q allowMatch a r := by
  constructor
  · intro h
    rw [partParse] at h
    split at h
    case h_1 s ho =>
      obtain ⟨⟨args, r'⟩, hargs, heq⟩ := Option.map_eq_some_iff.mp h
      obtain ⟨rfl, rfl⟩ := Prod.mk.inj heq
      exact .and (openedOp_eq_some.mp ho) hargs
    case h_2 s ho =>
      obtain ⟨⟨args, r'⟩, hargs, heq⟩ := Option.map_eq_some_iff.mp h
      obtain ⟨rfl, rfl⟩ := Prod.mk.inj heq
      exact .or (openedOp_eq_some.mp ho) hargs
    case h_3 s ho =>
      split at h
      · rename_i arg hints rest hargs
        obtain ⟨rfl, rfl⟩ := Prod.mk.inj (Option.some.inj h)
        exact .hint (openedOp_eq_some.mp ho) hargs
      · cases h
    case h_4 s ho =>
      split at h
      · rename_i arg rest harg
        obtain ⟨r', hr, heq⟩ := Option.map_eq_some_iff.mp h
        obtain ⟨rfl, rfl⟩ := Prod.mk.inj heq
        rw [expect_eq_some.mp hr] at harg
        exact .not (openedOp_eq_some.mp ho) harg
      · cases h
    case h_5 ho =>
      split_ifs at h with hallow
      obtain ⟨⟨m, r'⟩, hm, heq⟩ := Option.map_eq_some_iff.mp h
      obtain ⟨rfl, rfl⟩ := Prod.mk.inj heq
      exact .spec ho hallow hm
  · intro h
    rw [partParse]
    cases h with
    | and ho hargs => simp [openedOp_eq_some.mpr ho, hargs]
    | or ho hargs => simp [openedOp_eq_some.mpr ho, hargs]
    | hint ho hargs => simp [openedOp_eq_some.mpr ho, hargs]
    | not ho harg => simp [openedOp_eq_some.mpr ho, harg, expect]
    | spec ho hallow hm => simp [ho, hallow, hm]

/-- What it does on the arguments of an operator. -/
inductive ArgsStep (e : SearchEnv) (n : Nat) (q : Bytes) :
    List (SearchAst TagPattern) → Bytes → Prop
  | last {arg rest r} : partParse e n (q.dropWhile isSpace) true = some (arg, rest) →
      rest.dropWhile isSpace = 41 :: r → ArgsStep e n q [arg] r
  | more {arg rest s args r} : partParse e n (q.dropWhile isSpace) true = some (arg, rest) →
      rest.dropWhile isSpace = 44 :: s → argsParse e n s = some (args, r) →
      ArgsStep e n q (arg :: args) r

theorem argsParse_succ {n : Nat} {q r : Bytes} {args : List (SearchAst TagPattern)} :
    argsParse e (n + 1) q = some (args, r) ↔ ArgsStep e n q args r := by
  constructor
  · intro h
    rw [argsParse] at h
    split at h
    case h_1 => cases h
    case h_2 arg rest harg =>
      split at h
      case h_1 s hs =>
        obtain ⟨⟨args', r'⟩, hargs, heq⟩ := Option.map_eq_some_iff.mp h
        obtain ⟨rfl, rfl⟩ := Prod.mk.inj heq
        exact .more harg (expect_eq_some.mp hs) hargs
      case h_2 =>
        obtain ⟨s, hs, heq⟩ := Option.map_eq_some_iff.mp h
        obtain ⟨rfl, rfl⟩ := Prod.mk.inj heq
        exact .last harg (expect_eq_some.mp hs)
  · intro h
    rw [argsParse]
    cases h with
    | last harg hs => simp [harg, hs, expect]
    | more harg hs hargs => simp [harg, hs, expect, hargs]

/-! What the parser consumes: its result does not depend on the bound. -/

theorem length_dropWhile_isSpace_le (q : Bytes) : (q.dropWhile isSpace).length ≤ q.length :=
  (List.dropWhile_suffix isSpace).length_le

theorem matchHead_length {q : Bytes} {head : MatchHead} (h : matchHead e q = some head) :
    head.query.length ≤ q.length := by
  unfold matchHead at h
  dsimp only at h
  split_ifs at h
  · simp [← Option.some.inj h, after]
  · simp [← Option.some.inj h]
  · simp [← Option.some.inj h]
  · simp [← Option.some.inj h]

theorem regex_length {head : MatchHead} {r : Bytes × Bytes} (h : head.regex part = some r) :
    r.2.length < head.query.length := by
  unfold MatchHead.regex at h
  split_ifs at h
  obtain ⟨s, hs, h⟩ := Option.bind_eq_some_iff.mp h
  obtain ⟨r', hr, h⟩ := Option.bind_eq_some_iff.mp h
  split_ifs at h
  have hlt := length_regexBody hr
  rw [expect_eq_some.mp hs, ← Option.some.inj h, List.length_cons]
  omega

theorem encodedText_length {mark : UInt8} {q : Bytes} {r : Bytes × Bytes}
    (h : encodedText e part mark q = some r) : r.2.length < q.length := by
  unfold encodedText at h
  obtain ⟨s, hs, h⟩ := Option.bind_eq_some_iff.mp h
  dsimp only at h
  split_ifs at h
  obtain ⟨x, -, h⟩ := Option.bind_eq_some_iff.mp h
  split_ifs at h
  obtain ⟨rest, hrest, h⟩ := Option.bind_eq_some_iff.mp h
  have hlen := congrArg List.length (expect_eq_some.mp hrest)
  rw [List.length_drop, List.length_cons] at hlen
  rw [expect_eq_some.mp hs, ← Option.some.inj h, List.length_cons]
  dsimp only
  omega

theorem literalText_length {q : Bytes} {r : Bytes × Bytes} (h : literalText part q = some r) :
    r.2.length ≤ q.length ∧ (part = .cat → r.2.length < q.length) := by
  obtain ⟨str, rest⟩ := r
  unfold literalText at h
  split at h
  · rename_i s hs
    obtain ⟨body, hb, -⟩ := quotedText_eq_some h
    have hlen := congrArg List.length (quotedBody_spec hb)
    rw [List.length_append, List.length_cons] at hlen
    rw [expect_eq_some.mp hs, List.length_cons]
    dsimp only
    exact ⟨by omega, fun _ => by omega⟩
  · obtain ⟨hstr, rfl, hne⟩ := bareText_eq_some h
    have hle : str.length ≤ q.length := by
      rw [hstr]
      exact (List.takeWhile_prefix (inPattern part)).length_le
    rw [List.length_drop]
    refine ⟨by omega, fun hp => ?_⟩
    have hpos := List.length_pos_iff.mpr (hne hp)
    omega

theorem patternText_length {head : MatchHead} {r : Bytes × Bytes}
    (h : patternText e part head = some r) :
    r.2.length ≤ head.query.length ∧ (part = .cat → r.2.length < head.query.length) := by
  unfold patternText at h
  split_ifs at h
  · have hlt := encodedText_length h
    exact ⟨hlt.le, fun _ => hlt⟩
  · have hlt := encodedText_length h
    exact ⟨hlt.le, fun _ => hlt⟩
  · exact literalText_length h

theorem matchInit_length {q r : Bytes} {p : VarPattern} (h : matchInit e part q = some (p, r)) :
    r.length ≤ q.length ∧ (part = .cat → r.length < q.length) := by
  obtain ⟨head, hhead, -, ⟨-, body, hre⟩ | ⟨ht, -⟩⟩ := matchInit_cases h
  · have hle := matchHead_length hhead
    have hlt := regex_length hre
    dsimp only at hlt
    exact ⟨by omega, fun _ => by omega⟩
  · have hle := matchHead_length hhead
    obtain ⟨hle', hlt⟩ := patternText_length ht
    exact ⟨hle'.trans hle, fun hp => (hlt hp).trans_le hle⟩

theorem matchParse_length {q r : Bytes} {m : TagPattern} (h : matchParse e q = some (m, r)) :
    r.length < q.length := by
  obtain ⟨rest, hcat, ⟨-, -, rfl⟩ | ⟨s, p, rfl, hname, -⟩⟩ := matchParse_eq_some.mp h
  · exact (matchInit_length hcat).2 rfl
  · have hlt := (matchInit_length hcat).2 rfl
    have hle := (matchInit_length hname).1
    rw [List.length_cons] at hlt
    omega

theorem three_le_length_op (op : SearchOp) : 3 ≤ op.text.length := by
  cases op <;> decide

theorem length_of_opened {q s : Bytes} {op : SearchOp}
    (h : q.dropWhile isSpace = op.text ++ s) : s.length + 3 ≤ q.length := by
  have hle := length_dropWhile_isSpace_le q
  have hop := three_le_length_op op
  rw [h, List.length_append] at hle
  omega

/-- Whatever is parsed is taken off the query, so no part is empty. -/
theorem parse_length (e : SearchEnv) (n : Nat) :
    (∀ q allowMatch a r, partParse e n q allowMatch = some (a, r) → r.length < q.length) ∧
    (∀ q args r, argsParse e n q = some (args, r) → r.length < q.length) := by
  induction n with
  | zero =>
    constructor
    · intro q allowMatch a r h
      cases h
    · intro q args r h
      cases h
  | succ n ih =>
    obtain ⟨ihp, iha⟩ := ih
    constructor
    · intro q allowMatch a r h
      cases partParse_succ.mp h with
      | and ho hargs => exact (iha _ _ _ hargs).trans (by have := length_of_opened ho; omega)
      | or ho hargs => exact (iha _ _ _ hargs).trans (by have := length_of_opened ho; omega)
      | hint ho hargs => exact (iha _ _ _ hargs).trans (by have := length_of_opened ho; omega)
      | @not s arg r ho harg =>
        have hlen := length_of_opened ho
        have hle := length_dropWhile_isSpace_le s
        have hlt := ihp _ _ _ _ harg
        rw [List.length_cons] at hlt
        omega
      | spec _ _ hmatch => exact matchParse_length hmatch
    · intro q args r h
      have hle := length_dropWhile_isSpace_le q
      cases argsParse_succ.mp h with
      | @last arg rest r harg hrest =>
        have hle' := length_dropWhile_isSpace_le rest
        have hlt := ihp _ _ _ _ harg
        rw [hrest, List.length_cons] at hle'
        omega
      | @more arg rest s args r harg hrest hargs =>
        have hle' := length_dropWhile_isSpace_le rest
        have hlt := ihp _ _ _ _ harg
        have hlt' := iha _ _ _ hargs
        rw [hrest, List.length_cons] at hle'
        omega

theorem PartStep.lift {n m : Nat} {q r : Bytes} {allowMatch : Bool} {a : SearchAst TagPattern}
    (hp : ∀ s a r, s.length + 3 ≤ q.length → partParse e n s true = some (a, r) →
      partParse e m s true = some (a, r))
    (ha : ∀ s args r, s.length + 3 ≤ q.length → argsParse e n s = some (args, r) →
      argsParse e m s = some (args, r))
    (h : PartStep e n q allowMatch a r) : PartStep e m q allowMatch a r := by
  cases h with
  | and ho hargs => exact .and ho (ha _ _ _ (length_of_opened ho) hargs)
  | or ho hargs => exact .or ho (ha _ _ _ (length_of_opened ho) hargs)
  | hint ho hargs => exact .hint ho (ha _ _ _ (length_of_opened ho) hargs)
  | @not s arg r ho harg =>
    have hlen := length_of_opened ho
    have hle := length_dropWhile_isSpace_le s
    exact .not ho (hp _ _ _ (by omega) harg)
  | spec ho hallow hmatch => exact .spec ho hallow hmatch

-- The induction is on the bound of the first run; the arguments need one level more.
/-- What is parsed at all is parsed with any fuel above the length of the query. -/
theorem parse_bound (e : SearchEnv) (n : Nat) :
    (∀ q allowMatch a r, partParse e n q allowMatch = some (a, r) →
      ∀ m, q.length < m → partParse e m q allowMatch = some (a, r)) ∧
    (∀ q args r, argsParse e n q = some (args, r) →
      ∀ m, q.length + 1 < m → argsParse e m q = some (args, r)) := by
  induction n with
  | zero =>
    constructor
    · intro q allowMatch a r h
      cases h
    · intro q args r h
      cases h
  | succ n ih =>
    obtain ⟨ihp, iha⟩ := ih
    constructor
    · intro q allowMatch a r h m hm
      obtain ⟨m, rfl⟩ := Nat.exists_eq_add_one_of_ne_zero (by omega : m ≠ 0)
      apply partParse_succ.mpr
      apply (partParse_succ.mp h).lift
      · exact fun s a r hs hpart => ihp s true a r hpart m (by omega)
      · exact fun s args r hs hargs => iha s args r hargs m (by omega)
    · intro q args r h m hm
      obtain ⟨m, rfl⟩ := Nat.exists_eq_add_one_of_ne_zero (by omega : m ≠ 0)
      have hle := length_dropWhile_isSpace_le q
      apply argsParse_succ.mpr
      cases argsParse_succ.mp h with
      | last harg hrest => exact .last (ihp _ _ _ _ harg m (by omega)) hrest
      | @more arg rest s args r harg hrest hargs =>
        have hle' := length_dropWhile_isSpace_le rest
        have hlt := (parse_length e n).1 _ _ _ _ harg
        rw [hrest, List.length_cons] at hle'
        exact .more (ihp _ _ _ _ harg m (by omega)) hrest (iha _ _ _ hargs m (by omega))

theorem searchParse_eq_some {q : Bytes} {a : SearchAst TagPattern} :
    searchParse e q = some a ↔
      (∃ n, partParse e n q false = some (a, [])) ∧ searchCompile e a = true := by
  rw [searchParse, Option.bind_eq_bind, Option.bind_eq_some_iff]
  constructor
  · rintro ⟨⟨a', rest⟩, hp, h⟩
    dsimp only at h
    split_ifs at h with hc
    obtain rfl := Option.some.inj h
    obtain ⟨rfl, hcomp⟩ := hc
    exact ⟨⟨_, hp⟩, hcomp⟩
  · rintro ⟨⟨n, hp⟩, hcomp⟩
    refine ⟨(a, []), (parse_bound e n).1 _ _ _ _ hp _ (Nat.lt_succ_self _), ?_⟩
    simp [hcomp]

/-! The searches that the parser builds. -/

/-- The matcher that its own name selects again. -/
def KnownImpl (e : SearchEnv) (impl : MatcherImpl) : Prop :=
  e.matcherImpl impl.implName = impl ∧ (93 : UInt8) ∉ impl.implName

theorem known_builtin {impl : MatcherImpl} (h : impl ∈ builtinImpls) : KnownImpl e impl := by
  have hm := e.matchers_builtin impl h
  have hcases : impl = .default ∨ impl = .exact ∨ impl = .re ∨ impl = .graphite := by
    simpa [builtinImpls] using h
  rcases hcases with rfl | rfl | rfl | rfl <;>
    exact ⟨by rw [SearchEnv.matcherImpl, if_neg hm]; decide, by decide⟩

theorem known_matcherImpl (e : SearchEnv) (name : Bytes) : KnownImpl e (e.matcherImpl name) := by
  unfold SearchEnv.matcherImpl
  split_ifs with hm
  · exact ⟨if_pos hm, e.matchers_bracket name hm⟩
  all_goals exact known_builtin (by decide)

def VarPattern.Valid (e : SearchEnv) (p : VarPattern) : Prop :=
  KnownImpl e p.impl ∧ e.init p.impl p.str = true

def TagPattern.Valid (e : SearchEnv) (m : TagPattern) : Prop := ∀ p ∈ m.patterns, p.Valid e

mutual

def SearchAst.Valid (e : SearchEnv) : SearchAst TagPattern → Prop
  | .spec m => m.Valid e
  | .not arg => arg.Valid e
  | .and args => args ≠ [] ∧ ValidArgs e args
  | .or args => args ≠ [] ∧ ValidArgs e args
  | .hint arg hints => arg.Valid e ∧ ValidArgs e hints

def SearchAst.ValidArgs (e : SearchEnv) : List (SearchAst TagPattern) → Prop
  | [] => True
  | arg :: args => arg.Valid e ∧ ValidArgs e args

end

theorem matchHead_known {q : Bytes} {head : MatchHead} (h : matchHead e q = some head) :
    ∀ impl ∈ head.impl, KnownImpl e impl := by
  intro impl himpl
  unfold matchHead at h
  dsimp only at h
  split_ifs at h <;> rw [← Option.some.inj h] at himpl
  · obtain rfl := Option.some.inj himpl
    exact known_matcherImpl e _
  · obtain rfl := Option.some.inj himpl
    exact known_builtin (by decide)
  · cases himpl
  · cases himpl

theorem matchInit_valid {q r : Bytes} {p : VarPattern} (h : matchInit e part q = some (p, r)) :
    p.Valid e := by
  obtain ⟨head, hhead, hi, ⟨hre, -⟩ | ⟨-, himpl⟩⟩ := matchInit_cases h
  · exact ⟨hre ▸ known_builtin (by decide), hi⟩
  · refine ⟨?_, hi⟩
    cases hx : head.impl with
    | some impl =>
      rw [himpl, hx]
      exact matchHead_known hhead impl hx
    | none =>
      rw [himpl, hx, Option.getD_none]
      split_ifs <;> exact known_builtin (by decide)

theorem matchParse_valid {q r : Bytes} {m : TagPattern} (h : matchParse e q = some (m, r)) :
    m.Valid e := by
  intro p hp
  obtain ⟨rest, hcat, hname⟩ := matchParse_eq_some.mp h
  rcases List.mem_cons.mp hp with rfl | hp
  · exact matchInit_valid hcat
  · rcases hname with ⟨-, hnone, -⟩ | ⟨s, p', -, hname, hsome⟩
    · simp [hnone] at hp
    · rw [hsome, Option.toList_some, List.mem_singleton] at hp
      exact hp ▸ matchInit_valid hname

/-- Every search that is built has patterns its matchers accept and operators with arguments. -/
theorem parse_valid (e : SearchEnv) (n : Nat) :
    (∀ q allowMatch a r, partParse e n q allowMatch = some (a, r) → a.Valid e) ∧
    (∀ q args r, argsParse e n q = some (args, r) → args ≠ [] ∧ SearchAst.ValidArgs e args) := by
  induction n with
  | zero =>
    constructor
    · intro q allowMatch a r h
      cases h
    · intro q args r h
      cases h
  | succ n ih =>
    obtain ⟨ihp, iha⟩ := ih
    constructor
    · intro q allowMatch a r h
      cases partParse_succ.mp h with
      | and _ hargs => exact iha _ _ _ hargs
      | or _ hargs => exact iha _ _ _ hargs
      | hint _ hargs => exact (iha _ _ _ hargs).2
      | not _ harg =>
        rw [SearchAst.Valid]
        exact ihp _ _ _ _ harg
      | spec _ _ hmatch => exact matchParse_valid hmatch
    · intro q args r h
      cases argsParse_succ.mp h with
      | last harg _ => exact ⟨by simp, ihp _ _ _ _ harg, trivial⟩
      | more harg _ hargs => exact ⟨by simp, ihp _ _ _ _ harg, (iha _ _ _ hargs).2⟩

end Reconnoiter
