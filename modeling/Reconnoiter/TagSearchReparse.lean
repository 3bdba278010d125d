import Reconnoiter.TagSearchParse

/-! Which searches survive being printed and parsed again. -/

namespace Reconnoiter

variable {e : SearchEnv} {part : MatchPart}

theorem length_unescape_le (mark : UInt8) (s : Bytes) : (unescape mark s).length ≤ s.length := by
  fun_induction unescape mark s with
  | case1 => rfl
  | case2 => rfl
  | case3 c d s _ ih =>
    simp only [List.length_cons]
    omega
  | case4 c d s _ ih =>
    simp only [List.length_cons] at ih ⊢
    omega

theorem count_unescape {mark c : UInt8} (hc : c ≠ 92) (s : Bytes) :
    (unescape mark s).count c = s.count c := by
  fun_induction unescape mark s with
  | case1 => rfl
  | case2 => rfl
  | case3 x d s hx ih => rw [List.count_cons, List.count_cons, List.count_cons, ih, hx.1]; simp [hc.symm]
  | case4 x d s _ ih => rw [List.count_cons, List.count_cons, ih]

def PlainPattern (part : MatchPart) (str : Bytes) : Prop :=
  (part = .cat → str ≠ []) ∧ str.head? ≠ some 34 ∧ ∀ c ∈ str, inPattern part c = true

instance (part : MatchPart) (str : Bytes) : Decidable (PlainPattern part str) :=
  inferInstanceAs (Decidable (_ ∧ _ ∧ _))

def Stops (part : MatchPart) (tail : Bytes) : Prop :=
  ∃ c t, tail = c :: t ∧ inPattern part c = false ∧ c ≠ 34 ∧ c ≠ 92

theorem quotedText_ne {x tail r : Bytes} (hs : Stops part tail) :
    quotedText part (x ++ tail) ≠ some (34 :: x, r) := by
  intro h
  obtain ⟨body, hb, hu⟩ := quotedText_eq_some h
  obtain ⟨c, t, rfl, -, hq, hbs⟩ := hs
  rcases List.append_eq_append_iff.mp (quotedBody_spec hb) with ⟨a, rfl, ha⟩ | ⟨a, rfl, -⟩
  · -- The quote was closed beyond the pattern: one more of the byte that ends it was read.
    cases a with
    | nil => exact hq (List.cons.inj ha).1
    | cons d a =>
      obtain ⟨rfl, -⟩ := List.cons.inj ha
      have hcount := congrArg (List.count c) hu
      rw [unescapeTagString, count_unescape hbs, List.count_append, List.count_cons_self,
        List.count_cons_of_ne hq.symm] at hcount
      omega
  · have hlen := congrArg List.length hu
    have hle := length_unescape_le 34 body
    simp only [unescapeTagString, List.length_cons, List.length_append] at hlen hle
    omega

theorem literalText_iff {str tail r : Bytes} (hs : Stops part tail) :
    literalText part (str ++ tail) = some (str, r) ↔ PlainPattern part str ∧ r = tail := by
  obtain ⟨c, t, htail, hc, hq, hbs⟩ := hs
  constructor
  · intro h
    cases hx : expect 34 (str ++ tail) with
    | some s =>
      simp only [literalText, hx] at h
      rw [expect_eq_some] at hx
      cases str with
      | nil =>
        rw [htail] at hx
        exact absurd (List.cons.inj hx).1 hq
      | cons d x =>
        obtain ⟨rfl, rfl⟩ := List.cons.inj hx
        exact absurd h (quotedText_ne ⟨c, t, htail, hc, hq, hbs⟩)
    | none =>
      simp only [literalText, hx] at h
      obtain ⟨hstr, hr, hne⟩ := bareText_eq_some h
      refine ⟨⟨hne, ?_, ?_⟩, by rw [hr, List.drop_left]⟩
      · intro hhead
        obtain ⟨x, rfl⟩ := List.head?_eq_some_iff.mp hhead
        simp [expect] at hx
      · intro d hd
        rw [hstr] at hd
        exact List.mem_takeWhile_imp hd
  · rintro ⟨⟨hne, hhead, hall⟩, rfl⟩
    have hx : expect 34 (str ++ r) = none := by
      cases str with
      | nil => rw [htail]; exact expect_of_head_ne hq
      | cons d x => exact expect_of_head_ne (by simpa using hhead)
    have htake : (str ++ r).takeWhile (inPattern part) = str := by
      rw [List.takeWhile_append_of_pos hall, htail]
      simp [hc]
    simp only [literalText, hx, bareText, htake, List.drop_left]
    exact if_neg fun h => hne h.2 h.1

theorem matchHead_bracket {impl : MatcherImpl} (h : KnownImpl e impl) (s : Bytes) :
    matchHead e (91 :: impl.implName ++ 93 :: s) = some ⟨some impl, false, false, s⟩ := by
  have hmem : (93 : UInt8) ∉ 91 :: impl.implName := by
    simp [h.2]
  rw [matchHead, upTo_append_cons hmem, after_append_cons hmem]
  simp [b64Open, List.isPrefixOf, h.1]

theorem matchInit_text_iff {p : VarPattern} {tail r : Bytes} (hp : p.Valid e)
    (hs : Stops part tail) :
    matchInit e part (p.text ++ tail) = some (p, r) ↔ PlainPattern part p.str ∧ r = tail := by
  have htext : p.text ++ tail = 91 :: p.impl.implName ++ 93 :: (p.str ++ tail) := by
    simp [VarPattern.text]
  have hread : matchInit e part (p.text ++ tail) =
      (literalText part (p.str ++ tail)).bind fun x => initPattern e p.impl x.1 x.2 := by
    rw [htext, matchInit, matchHead_bracket hp.1]
    rfl
  rw [hread, ← literalText_iff hs, Option.bind_eq_some_iff]
  constructor
  · rintro ⟨⟨str, rest⟩, hx, hi⟩
    obtain ⟨-, hpe, rfl⟩ := initPattern_eq_some.mp hi
    rw [hpe] at hx ⊢
    exact hx
  · intro hx
    exact ⟨(p.str, r), hx, initPattern_eq_some.mpr ⟨hp.2, rfl, rfl⟩⟩

def TagPattern.Plain (m : TagPattern) : Prop :=
  PlainPattern .cat m.cat.str ∧ ∀ p ∈ m.name, PlainPattern .name p.str

instance (m : TagPattern) : Decidable m.Plain :=
  match h : m.name with
  | none => decidable_of_iff (PlainPattern .cat m.cat.str) (by simp [TagPattern.Plain, h])
  | some p => decidable_of_iff (PlainPattern .cat m.cat.str ∧ PlainPattern .name p.str)
      (by simp [TagPattern.Plain, h])

def ArgEnd (rest : Bytes) : Prop := ∃ c t, rest = c :: t ∧ (c = 44 ∨ c = 41)

theorem ArgEnd.stops {rest : Bytes} (h : ArgEnd rest) : Stops part rest := by
  obtain ⟨c, t, rfl, hc⟩ := h
  refine ⟨c, t, rfl, ?_⟩
  rcases hc with rfl | rfl <;> cases part <;> decide

theorem ArgEnd.expect_colon {rest : Bytes} (h : ArgEnd rest) : expect 58 rest = none := by
  obtain ⟨c, t, rfl, hc⟩ := h
  exact expect_of_head_ne (by rcases hc with rfl | rfl <;> decide)

theorem stops_colon (s : Bytes) : Stops .cat (58 :: s) := ⟨58, s, rfl, by decide⟩

theorem matchParse_text_iff {m : TagPattern} {rest r : Bytes} (hm : m.Valid e)
    (hr : ArgEnd rest) :
    matchParse e (m.text ++ rest) = some (m, r) ↔ m.Plain ∧ r = rest := by
  obtain ⟨cat, name⟩ := m
  have hcat : cat.Valid e := hm cat (by simp [TagPattern.patterns])
  rw [matchParse_eq_some]
  cases name with
  | none =>
    have htext : (⟨cat, none⟩ : TagPattern).text ++ rest = cat.text ++ rest := by
      simp [TagPattern.text]
    rw [htext]
    simp only [matchInit_text_iff hcat hr.stops, TagPattern.Plain]
    constructor
    · rintro ⟨rest', ⟨hp, rfl⟩, ⟨-, -, rfl⟩ | ⟨s, p, -, -, hn⟩⟩
      · exact ⟨⟨hp, by simp⟩, rfl⟩
      · cases hn
    · rintro ⟨⟨hp, -⟩, rfl⟩
      exact ⟨r, ⟨hp, rfl⟩, Or.inl ⟨hr.expect_colon, trivial, rfl⟩⟩
  | some p =>
    have hname : p.Valid e := hm p (by simp [TagPattern.patterns])
    have htext : (⟨cat, some p⟩ : TagPattern).text ++ rest =
        cat.text ++ 58 :: (p.text ++ rest) := by
      simp [TagPattern.text]
    rw [htext]
    simp only [matchInit_text_iff hcat (stops_colon _), TagPattern.Plain]
    constructor
    · rintro ⟨rest', ⟨hp, rfl⟩, ⟨-, hn, -⟩ | ⟨s, p', hs, hi, hn⟩⟩
      · cases hn
      · cases hn
        obtain ⟨-, rfl⟩ := List.cons.inj hs
        obtain ⟨hp', rfl⟩ := (matchInit_text_iff hname hr.stops).mp hi
        exact ⟨⟨hp, by simpa using hp'⟩, rfl⟩
    · rintro ⟨⟨hp, hp'⟩, rfl⟩
      refine ⟨_, ⟨hp, rfl⟩, Or.inr ⟨_, p, rfl, ?_, rfl⟩⟩
      exact (matchInit_text_iff hname hr.stops).mpr ⟨hp' p rfl, rfl⟩

/-! The printed text, without the limit on its depth. -/

mutual

def SearchAst.text : SearchAst TagPattern → Bytes
  | .spec m => m.text
  | .not arg => SearchOp.not.text ++ arg.text ++ [41]
  | .and args => SearchOp.and.text ++ argsText args ++ [41]
  | .or args => SearchOp.or.text ++ argsText args ++ [41]
  | .hint arg hints => SearchOp.hint.text ++ (arg.text ++ moreText hints) ++ [41]

def SearchAst.argsText : List (SearchAst TagPattern) → Bytes
  | [] => []
  | arg :: args => arg.text ++ moreText args

def SearchAst.moreText : List (SearchAst TagPattern) → Bytes
  | [] => []
  | arg :: args => 44 :: (arg.text ++ moreText args)

end

open SearchAst

mutual

theorem unparsePart_eq_text : ∀ (level : Nat) (a : SearchAst TagPattern) (t : Bytes),
    unparsePart level a = some t → t = a.text
  | level, .spec m, t, h => by
    rw [unparsePart] at h
    split_ifs at h
    exact (Option.some.inj h).symm
  | level, .not arg, t, h => by
    rw [unparsePart] at h
    split_ifs at h
    obtain ⟨s, hs, h⟩ := Option.bind_eq_some_iff.mp h
    rw [← Option.some.inj h, unparsePart_eq_text _ arg s hs, SearchAst.text]
  | level, .and args, t, h => by
    rw [unparsePart] at h
    split_ifs at h
    obtain ⟨s, hs, h⟩ := Option.bind_eq_some_iff.mp h
    rw [← Option.some.inj h, unparseArgs_eq_text _ args s hs, SearchAst.text]
  | level, .or args, t, h => by
    rw [unparsePart] at h
    split_ifs at h
    obtain ⟨s, hs, h⟩ := Option.bind_eq_some_iff.mp h
    rw [← Option.some.inj h, unparseArgs_eq_text _ args s hs, SearchAst.text]
  | level, .hint arg hints, t, h => by
    rw [unparsePart] at h
    split_ifs at h
    obtain ⟨s, hs, h⟩ := Option.bind_eq_some_iff.mp h
    obtain ⟨s', hs', h⟩ := Option.bind_eq_some_iff.mp h
    rw [← Option.some.inj h, unparsePart_eq_text _ arg s hs, unparseMore_eq_text _ hints s' hs',
      SearchAst.text]

theorem unparseArgs_eq_text : ∀ (level : Nat) (args : List (SearchAst TagPattern)) (t : Bytes),
    unparseArgs level args = some t → t = argsText args
  | _, [], t, h => (Option.some.inj h).symm
  | level, arg :: args, t, h => by
    obtain ⟨s, hs, h⟩ := Option.bind_eq_some_iff.mp h
    obtain ⟨s', hs', h⟩ := Option.bind_eq_some_iff.mp h
    rw [← Option.some.inj h, unparsePart_eq_text _ arg s hs, unparseMore_eq_text _ args s' hs',
      argsText]

theorem unparseMore_eq_text : ∀ (level : Nat) (args : List (SearchAst TagPattern)) (t : Bytes),
    unparseMore level args = some t → t = moreText args
  | _, [], t, h => (Option.some.inj h).symm
  | level, arg :: args, t, h => by
    obtain ⟨s, hs, h⟩ := Option.bind_eq_some_iff.mp h
    obtain ⟨s', hs', h⟩ := Option.bind_eq_some_iff.mp h
    rw [← Option.some.inj h, unparsePart_eq_text _ arg s hs, unparseMore_eq_text _ args s' hs',
      moreText]

end

/-! Parsing the printed text. -/

theorem dropWhile_op (op : SearchOp) (s : Bytes) :
    (op.text ++ s).dropWhile isSpace = op.text ++ s := by
  cases op <;> rfl

theorem dropWhile_text (a : SearchAst TagPattern) (s : Bytes) :
    (a.text ++ s).dropWhile isSpace = a.text ++ s := by
  cases a with
  | spec m => rfl
  | not arg => simp only [SearchAst.text, List.append_assoc, dropWhile_op]
  | and args => simp only [SearchAst.text, List.append_assoc, dropWhile_op]
  | or args => simp only [SearchAst.text, List.append_assoc, dropWhile_op]
  | hint arg hints => simp only [SearchAst.text, List.append_assoc, dropWhile_op]

theorem length_text_pos (a : SearchAst TagPattern) : 0 < a.text.length := by
  cases a with
  | spec m => simp [SearchAst.text, TagPattern.text, VarPattern.text]
  | _ => simp [SearchAst.text]

section Steps

variable {n : Nat} {s r : Bytes} {allowMatch : Bool} {arg : SearchAst TagPattern}
  {args hints : List (SearchAst TagPattern)}

theorem partParse_and_iff :
    partParse e (n + 1) (SearchOp.and.text ++ s) allowMatch = some (.and args, r) ↔
      argsParse e n s = some (args, r) := by
  rw [partParse_succ]
  constructor
  · intro h
    cases h with
    | and ho hargs => rwa [List.append_cancel_left ((dropWhile_op _ _).symm.trans ho)]
  · exact fun h => .and (dropWhile_op _ _) h

theorem partParse_or_iff :
    partParse e (n + 1) (SearchOp.or.text ++ s) allowMatch = some (.or args, r) ↔
      argsParse e n s = some (args, r) := by
  rw [partParse_succ]
  constructor
  · intro h
    cases h with
    | or ho hargs => rwa [List.append_cancel_left ((dropWhile_op _ _).symm.trans ho)]
  · exact fun h => .or (dropWhile_op _ _) h

theorem partParse_hint_iff :
    partParse e (n + 1) (SearchOp.hint.text ++ s) allowMatch = some (.hint arg hints, r) ↔
      argsParse e n s = some (arg :: hints, r) := by
  rw [partParse_succ]
  constructor
  · intro h
    cases h with
    | hint ho hargs => rwa [List.append_cancel_left ((dropWhile_op _ _).symm.trans ho)]
  · exact fun h => .hint (dropWhile_op _ _) h

theorem partParse_not_iff :
    partParse e (n + 1) (SearchOp.not.text ++ s) allowMatch = some (.not arg, r) ↔
      partParse e n (s.dropWhile isSpace) true = some (arg, 41 :: r) := by
  rw [partParse_succ]
  constructor
  · intro h
    cases h with
    | not ho harg => rwa [List.append_cancel_left ((dropWhile_op _ _).symm.trans ho)]
  · exact fun h => .not (dropWhile_op _ _) h

theorem partParse_spec_iff {m : TagPattern} :
    partParse e (n + 1) (m.text ++ s) true = some (.spec m, r) ↔
      matchParse e (m.text ++ s) = some (m, r) := by
  rw [partParse_succ]
  constructor
  · intro h
    cases h with
    | spec _ _ hm => exact hm
  · exact fun h => .spec rfl rfl h

end Steps

theorem argEnd_more (args : List (SearchAst TagPattern)) (rest : Bytes) :
    ArgEnd (moreText args ++ 41 :: rest) := by
  cases args with
  | nil => exact ⟨41, rest, rfl, Or.inr rfl⟩
  | cons arg args => exact ⟨44, _, rfl, Or.inl rfl⟩

theorem argsParse_cons_iff {n : Nat} {rest r : Bytes} {arg : SearchAst TagPattern}
    {args : List (SearchAst TagPattern)}
    (hp : ∀ rest r, ArgEnd rest → (arg.text ++ rest).length < n →
      (partParse e n (arg.text ++ rest) true = some (arg, r) ↔
        (∀ m ∈ arg.leaves, m.Plain) ∧ r = rest))
    (ha : args ≠ [] → (argsText args ++ 41 :: rest).length + 1 < n →
      (argsParse e n (argsText args ++ 41 :: rest) = some (args, r) ↔
        (∀ m ∈ argLeaves args, m.Plain) ∧ r = rest))
    (hn : (argsText (arg :: args) ++ 41 :: rest).length < n) :
    argsParse e (n + 1) (argsText (arg :: args) ++ 41 :: rest) = some (arg :: args, r) ↔
      (∀ m ∈ argLeaves (arg :: args), m.Plain) ∧ r = rest := by
  have hend := argEnd_more args rest
  have htext : argsText (arg :: args) ++ 41 :: rest =
      arg.text ++ (moreText args ++ 41 :: rest) := by
    rw [argsText, List.append_assoc]
  rw [htext] at hn ⊢
  have hpart := fun r => hp (moreText args ++ 41 :: rest) r hend hn
  have hblank : (moreText args ++ 41 :: rest).dropWhile isSpace = moreText args ++ 41 :: rest := by
    cases args <;> rfl
  rw [argsParse_succ, argLeaves]
  simp only [List.mem_append, or_imp, forall_and]
  cases args with
  | nil =>
    constructor
    · intro h
      cases h with
      | last harg hrest =>
        rw [dropWhile_text] at harg
        obtain ⟨hplain, rfl⟩ := (hpart _).mp harg
        exact ⟨⟨hplain, by simp [argLeaves]⟩, (List.cons.inj hrest).2.symm⟩
      | more _ _ hargs => exact absurd rfl ((parse_valid e n).2 _ _ _ hargs).1
    · rintro ⟨⟨hplain, -⟩, rfl⟩
      refine .last ?_ hblank
      rw [dropWhile_text]
      exact (hpart _).mpr ⟨hplain, rfl⟩
  | cons arg' args =>
    have hpos := length_text_pos arg
    have hargs := ha (by simp) (by
      simp only [moreText, argsText, List.length_append, List.length_cons] at hn ⊢
      omega)
    constructor
    · intro h
      cases h with
      | more harg hrest hmore =>
        rw [dropWhile_text] at harg
        obtain ⟨hplain, rfl⟩ := (hpart _).mp harg
        obtain ⟨-, rfl⟩ := List.cons.inj hrest
        obtain ⟨hplains, rfl⟩ := hargs.mp hmore
        exact ⟨⟨hplain, hplains⟩, rfl⟩
    · rintro ⟨⟨hplain, hplains⟩, rfl⟩
      refine .more ?_ hblank (hargs.mpr ⟨hplains, rfl⟩)
      rw [dropWhile_text]
      exact (hpart _).mpr ⟨hplain, rfl⟩

mutual

theorem partParse_text_iff : ∀ (a : SearchAst TagPattern) (n : Nat) (allowMatch : Bool)
    (rest r : Bytes), a.Valid e → (∀ m, a = .spec m → allowMatch = true ∧ ArgEnd rest) →
    (a.text ++ rest).length < n →
    (partParse e n (a.text ++ rest) allowMatch = some (a, r) ↔
      (∀ m ∈ a.leaves, m.Plain) ∧ r = rest)
  | _, 0, _, _, _, _, _, hn => absurd hn (Nat.not_lt_zero _)
  | .spec m, n + 1, allowMatch, rest, r, hv, hspec, _ => by
    obtain ⟨rfl, hend⟩ := hspec m rfl
    rw [SearchAst.text, partParse_spec_iff, matchParse_text_iff hv hend]
    simp [leaves]
  | .not arg, n + 1, allowMatch, rest, r, hv, _, hn => by
    have htext : (SearchAst.not arg).text ++ rest =
        SearchOp.not.text ++ (arg.text ++ 41 :: rest) := by
      simp [SearchAst.text]
    have hop := three_le_length_op .not
    rw [htext, List.length_append] at hn
    rw [SearchAst.Valid] at hv
    rw [htext, partParse_not_iff, dropWhile_text,
      partParse_text_iff arg n true (41 :: rest) (41 :: r) hv
        (fun _ _ => ⟨rfl, 41, rest, rfl, Or.inr rfl⟩) (by omega)]
    simp [leaves]
  | .and args, n + 1, allowMatch, rest, r, hv, _, hn => by
    have htext : (SearchAst.and args).text ++ rest =
        SearchOp.and.text ++ (argsText args ++ 41 :: rest) := by
      simp [SearchAst.text]
    have hop := three_le_length_op .and
    rw [htext, List.length_append] at hn
    rw [htext, partParse_and_iff, leaves]
    exact argsParse_text_iff args n rest r hv.2 hv.1 (by omega)
  | .or args, n + 1, allowMatch, rest, r, hv, _, hn => by
    have htext : (SearchAst.or args).text ++ rest =
        SearchOp.or.text ++ (argsText args ++ 41 :: rest) := by
      simp [SearchAst.text]
    have hop := three_le_length_op .or
    rw [htext, List.length_append] at hn
    rw [htext, partParse_or_iff, leaves]
    exact argsParse_text_iff args n rest r hv.2 hv.1 (by omega)
  | .hint arg hints, n + 1, allowMatch, rest, r, hv, _, hn => by
    have htext : (SearchAst.hint arg hints).text ++ rest =
        SearchOp.hint.text ++ (argsText (arg :: hints) ++ 41 :: rest) := by
      simp [SearchAst.text, argsText]
    have hop := three_le_length_op .hint
    rw [htext, List.length_append] at hn
    rw [htext, partParse_hint_iff]
    obtain ⟨n, rfl⟩ := Nat.exists_eq_add_one_of_ne_zero (by omega : n ≠ 0)
    exact argsParse_cons_iff
      (fun rest r hend hn => partParse_text_iff arg n true rest r hv.1 (fun _ _ => ⟨rfl, hend⟩) hn)
      (fun hne hn => argsParse_text_iff hints n rest r hv.2 hne hn)
      (by omega)

theorem argsParse_text_iff : ∀ (args : List (SearchAst TagPattern)) (n : Nat) (rest r : Bytes),
    ValidArgs e args → args ≠ [] → (argsText args ++ 41 :: rest).length + 1 < n →
    (argsParse e n (argsText args ++ 41 :: rest) = some (args, r) ↔
      (∀ m ∈ argLeaves args, m.Plain) ∧ r = rest)
  | [], _, _, _, _, hne, _ => absurd rfl hne
  | _, 0, _, _, _, _, hn => absurd hn (Nat.not_lt_zero _)
  | arg :: args, n + 1, rest, r, hv, _, hn =>
    argsParse_cons_iff
      (fun rest r hend hn => partParse_text_iff arg n true rest r hv.1 (fun _ _ => ⟨rfl, hend⟩) hn)
      (fun hne hn => argsParse_text_iff args n rest r hv.2 hne hn)
      (Nat.lt_of_succ_lt_succ hn)

end

/-- A search that was parsed and printed is parsed back exactly when each of its
patterns can stand without quotes. -/
theorem reparsed_search_same_iff (e : SearchEnv) {query text : Bytes} {a : SearchAst TagPattern}
    (hq : searchParse e query = some a) (ht : unparse a = some text) :
    searchParse e text = some a ↔ ∀ m ∈ a.leaves, m.Plain := by
  obtain ⟨⟨n, hn⟩, hc⟩ := searchParse_eq_some.mp hq
  have hv := (parse_valid e n).1 _ _ _ _ hn
  have htext : text = a.text ++ [] := by
    rw [unparsePart_eq_text 0 a text ht, List.append_nil]
  -- No match stands alone: the whole query is an operator.
  have hspec : ∀ m, a = .spec m → false = true ∧ ArgEnd [] := by
    rintro m rfl
    cases n with
    | zero => cases hn
    | succ n =>
      cases partParse_succ.mp hn with
      | spec _ hallow _ => cases hallow
  have hiff := partParse_text_iff a (text.length + 1) false [] [] hv hspec (by rw [htext]; simp)
  rw [← htext] at hiff
  simp only [and_true] at hiff
  rw [← hiff, searchParse_eq_some]
  constructor
  · rintro ⟨⟨k, hk⟩, -⟩
    exact (parse_bound e k).1 _ _ _ _ hk _ (Nat.lt_succ_self _)
  · intro h
    exact ⟨⟨_, h⟩, hc⟩

def plainSearchEnv : SearchEnv where
  b64 := standardBase64
  matchers := []
  init _ _ := true
  compile _ _ := true
  matchers_bracket := by simp
  matchers_builtin := by simp

theorem reparsed_search_same_plain :
    let a : SearchAst TagPattern := .and [.spec ⟨⟨.exact, [97]⟩, some ⟨.exact, [98]⟩⟩]
    ∃ text, searchParse plainSearchEnv [97, 110, 100, 40, 97, 58, 98, 41] = some a ∧
      unparse a = some text ∧ searchParse plainSearchEnv text = some a := by
  have hq : searchParse plainSearchEnv [97, 110, 100, 40, 97, 58, 98, 41] =
      some (.and [.spec ⟨⟨.exact, [97]⟩, some ⟨.exact, [98]⟩⟩]) := rfl
  refine ⟨_, hq, rfl, (reparsed_search_same_iff plainSearchEnv hq rfl).mpr ?_⟩
  decide +kernel

theorem printed_regex_not_reparsed :
    let a : SearchAst TagPattern :=
      .and [.spec ⟨⟨.exact, [116, 101, 97, 109]⟩,
        some ⟨.re, [94, 40, 114, 101, 100, 124, 98, 108, 117, 101, 41, 36]⟩⟩]
    ∃ text,
      searchParse plainSearchEnv
        ([97, 110, 100, 40, 116, 101, 97, 109, 58, 47, 94] ++
          [40, 114, 101, 100, 124, 98, 108, 117, 101, 41, 36, 47, 41]) = some a ∧
      unparse a = some text ∧ searchParse plainSearchEnv text = none :=
  ⟨_, rfl, rfl, rfl⟩

end Reconnoiter
