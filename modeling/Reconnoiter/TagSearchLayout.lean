import Reconnoiter.TagSearchFollow

/-! Blanks in a tag search. A query is read as a tree that keeps the blanks around every
argument; blanks are then inserted in the tree, and the query of the new tree is parsed. -/

namespace Reconnoiter

variable {e : SearchEnv}

mutual

/-- A query or an argument: a match, as written, as parsed and whether it ends in a regular
expression, or an operator. -/
inductive QueryTree where
  | leaf (text : Bytes) (m : TagPattern) (regex : Bool)
  | op (o : SearchOp) (args : QueryArgs)

inductive QueryArgs where
  | last (before : Bytes) (arg : QueryTree) (behind : Bytes)
  | more (before : Bytes) (arg : QueryTree) (behind : Bytes) (args : QueryArgs)

end

mutual

def QueryTree.text : QueryTree → Bytes
  | .leaf text _ _ => text
  | .op o args => o.text ++ args.text

def QueryArgs.text : QueryArgs → Bytes
  | .last before arg behind => before ++ (arg.text ++ (behind ++ [41]))
  | .more before arg behind args => before ++ (arg.text ++ (behind ++ 44 :: args.text))

end

def SearchOp.ast : SearchOp → SearchAst TagPattern → List (SearchAst TagPattern) → SearchAst TagPattern
  | .and, first, rest => .and (first :: rest)
  | .or, first, rest => .or (first :: rest)
  | .hint, first, rest => .hint first rest
  | .not, first, _ => .not first

mutual

def QueryTree.ast : QueryTree → SearchAst TagPattern
  | .leaf _ m _ => .spec m
  | .op o args => o.ast args.first args.rest

def QueryArgs.first : QueryArgs → SearchAst TagPattern
  | .last _ arg _ => arg.ast
  | .more _ arg _ _ => arg.ast

def QueryArgs.rest : QueryArgs → List (SearchAst TagPattern)
  | .last _ _ _ => []
  | .more _ _ _ args => args.first :: args.rest

end

def QueryTree.regex : QueryTree → Bool
  | .leaf _ _ regex => regex
  | .op _ _ => false

def QueryArgs.Tight : QueryArgs → Prop
  | .last _ _ behind => behind = []
  | .more _ _ _ _ => False

mutual

def QueryTree.Reads (e : SearchEnv) : QueryTree → Bytes → Prop
  | .leaf text m regex, v =>
    openedOp (text ++ v) = none ∧ matchParse e (text ++ v) = some (m, v) ∧ regex = endsInRegex e (text ++ v)
  | .op o args, v => args.Reads e v ∧ (o = .not → args.Tight)

def QueryArgs.Reads (e : SearchEnv) : QueryArgs → Bytes → Prop
  | .last before arg behind, v => Blanks before ∧ Blanks behind ∧ arg.Reads e (behind ++ 41 :: v)
  | .more before arg behind args, v =>
    Blanks before ∧ Blanks behind ∧ arg.Reads e (behind ++ 44 :: (args.text ++ v)) ∧ args.Reads e v

end

mutual

/-- The second tree has more blanks: behind opening parentheses, around commas, before closing
parentheses. -/
def QueryTree.Inserted : QueryTree → QueryTree → Prop
  | .leaf text m regex, t' => t' = .leaf text m regex
  | .op o args, t' => ∃ args', t' = .op o args' ∧ args.Inserted args'

def QueryArgs.Inserted : QueryArgs → QueryArgs → Prop
  | .last before arg behind, args' => ∃ i arg' j, args' = .last (i ++ before) arg' (behind ++ j) ∧
    Blanks i ∧ Blanks j ∧ arg.Inserted arg'
  | .more before arg behind args, args' => ∃ i arg' j more,
      args' = .more (i ++ before) arg' (behind ++ j) more ∧
    Blanks i ∧ Blanks j ∧ arg.Inserted arg' ∧ args.Inserted more

end

mutual

def QueryTree.Spares : QueryTree → Prop
  | .leaf _ _ _ => True
  | .op o args => args.Spares ∧ (o = .not → args.Tight)

def QueryArgs.Spares : QueryArgs → Prop
  | .last _ arg behind => arg.Spares ∧ (arg.regex = true → behind = [])
  | .more _ arg behind args => arg.Spares ∧ (arg.regex = true → behind = []) ∧ args.Spares

end

theorem Blanks.append {s t : Bytes} (hs : Blanks s) (ht : Blanks t) : Blanks (s ++ t) := by
  intro c hc
  rcases List.mem_append.mp hc with h | h
  · exact hs c h
  · exact ht c h

theorem Blanks.dropWhile {blanks : Bytes} (h : Blanks blanks) (s : Bytes) :
    (blanks ++ s).dropWhile isSpace = s.dropWhile isSpace := by
  induction blanks with
  | nil => rfl
  | cons c blanks ih =>
    obtain ⟨hc, hrest⟩ := List.forall_mem_cons.mp h
    rw [List.cons_append, List.dropWhile_cons_of_pos hc, ih hrest]

theorem Blanks.dropWhile_end {blanks : Bytes} (h : Blanks blanks) {c : UInt8}
    (hc : c = 44 ∨ c = 41) (s : Bytes) :
    (blanks ++ c :: s).dropWhile isSpace = c :: s := by
  rw [h.dropWhile]
  rcases hc with rfl | rfl <;> rfl

theorem Blanks.argFollow {blanks : Bytes} (h : Blanks blanks) {c : UInt8} (hc : c = 44 ∨ c = 41) (s : Bytes) :
    ArgFollow (blanks ++ c :: s) := by
  cases blanks with
  | nil =>
    intro d hd
    cases hd
    exact Or.inr hc
  | cons b blanks =>
    intro d hd
    cases hd
    exact Or.inl (List.forall_mem_cons.mp h).1

theorem blanks_takeWhile (s : Bytes) : Blanks (s.takeWhile isSpace) := by
  intro c hc
  exact List.mem_takeWhile_imp hc

theorem openedOp_follow {t v v' : Bytes} (h : openedOp (t ++ v) = none) (hv' : ArgFollow v') :
    openedOp (t ++ v') = none := by
  refine Option.eq_none_iff_forall_not_mem.mpr fun ⟨o, s⟩ ho => ?_
  have htext := openedOp_eq_some.mp ho
  rcases List.append_eq_append_iff.mp htext with ⟨x, hx, hv⟩ | ⟨x, hx, -⟩
  · cases x with
    | nil =>
      rw [List.append_nil] at hx
      rw [openedOp_eq_some.mpr (by rw [hx])] at h
      cases h
    | cons c x =>
      have hfollow := hv' c (by rw [hv]; rfl)
      have hmem : c ∈ o.text := by
        rw [hx]
        simp
      have hplain : ∀ o : SearchOp, ∀ c ∈ o.text, ¬(isSpace c = true ∨ c = 44 ∨ c = 41) := by
        intro o
        cases o <;> decide +kernel
      exact hplain o c hmem hfollow
  · rw [hx, List.append_assoc, openedOp_eq_some.mpr rfl] at h
    cases h

section Steps

variable {n : Nat} {s r : Bytes} {allowMatch : Bool} {first : SearchAst TagPattern}
  {rest : List (SearchAst TagPattern)} {o : SearchOp}

theorem partParse_op_iff (ho : o ≠ .not) :
    partParse e (n + 1) (o.text ++ s) allowMatch = some (o.ast first rest, r) ↔
      argsParse e n s = some (first :: rest, r) := by
  cases o with
  | and => exact partParse_and_iff
  | or => exact partParse_or_iff
  | hint => exact partParse_hint_iff
  | not => exact absurd rfl ho

theorem partParse_lead {lead : Bytes} (h : Blanks lead) :
    partParse e n (lead ++ (o.text ++ s)) allowMatch = partParse e n (o.text ++ s) true := by
  cases n with
  | zero => rfl
  | succ n =>
    rw [partParse, partParse, h.dropWhile, dropWhile_op, openedOp_eq_some.mpr rfl]
    cases o <;> rfl

theorem partParse_same {m : Nat} {q r' : Bytes} {a a' : SearchAst TagPattern}
    (h : partParse e n q allowMatch = some (a, r)) (h' : partParse e m q allowMatch = some (a', r')) :
    a = a' ∧ r = r' := by
  have hn := (parse_bound e n).1 _ _ _ _ h _ (Nat.lt_succ_self _)
  have hm := (parse_bound e m).1 _ _ _ _ h' _ (Nat.lt_succ_self _)
  rw [hn] at hm
  exact Prod.mk.inj (Option.some.inj hm)

theorem argsParse_more {m : Nat} {q behind : Bytes}
    (hn : partParse e n (q.dropWhile isSpace) true = some (first, behind))
    (hbehind : behind.dropWhile isSpace = 44 :: s) (hm : argsParse e m s = some (rest, r)) :
    ∃ k, argsParse e k q = some (first :: rest, r) := by
  have hle := length_dropWhile_isSpace_le q
  have hn' := (parse_bound e n).1 _ _ _ _ hn (q.length + s.length + 2) (by omega)
  have hm' := (parse_bound e m).2 _ _ _ hm (q.length + s.length + 2) (by omega)
  exact ⟨_, argsParse_succ.mpr (.more hn' hbehind hm')⟩

end Steps

/-! The trees that the parser reads. -/

section Readings

variable {n : Nat}

def PartReadings (e : SearchEnv) (n : Nat) : Prop :=
  ∀ q allowMatch a r, partParse e n q allowMatch = some (a, r) →
    ∃ lead, ∃ t : QueryTree, Blanks lead ∧ q = lead ++ (t.text ++ r) ∧ t.Reads e r ∧ t.ast = a

def ArgsReadings (e : SearchEnv) (n : Nat) : Prop :=
  ∀ q args r, argsParse e n q = some (args, r) →
    ∃ t : QueryArgs, q = t.text ++ r ∧ t.Reads e r ∧ t.first :: t.rest = args

theorem PartReadings.arg (h : PartReadings e n) {q rest : Bytes} {arg : SearchAst TagPattern}
    (harg : partParse e n (q.dropWhile isSpace) true = some (arg, rest)) :
    ∃ before, ∃ t : QueryTree, Blanks before ∧ q = before ++ (t.text ++ rest) ∧
      t.Reads e rest ∧ t.ast = arg := by
  obtain ⟨lead, t, hlead, hq, hreads, hast⟩ := h _ _ _ _ harg
  refine ⟨q.takeWhile isSpace ++ lead, t, (blanks_takeWhile q).append hlead, ?_, hreads, hast⟩
  rw [List.append_assoc, ← hq, List.takeWhile_append_dropWhile]

theorem blanks_split {rest s : Bytes} (h : rest.dropWhile isSpace = s) :
    ∃ behind, Blanks behind ∧ rest = behind ++ s :=
  ⟨rest.takeWhile isSpace, blanks_takeWhile rest, by rw [← h, List.takeWhile_append_dropWhile]⟩

theorem ArgsReadings.step (hp : PartReadings e n) (ha : ArgsReadings e n) : ArgsReadings e (n + 1) := by
  intro q args r h
  cases argsParse_succ.mp h with
  | last harg hrest =>
    obtain ⟨before, t, hbefore, rfl, hreads, rfl⟩ := hp.arg harg
    obtain ⟨behind, hbehind, rfl⟩ := blanks_split hrest
    exact ⟨.last before t behind, by simp [QueryArgs.text], ⟨hbefore, hbehind, hreads⟩, rfl⟩
  | more harg hrest hargs =>
    obtain ⟨before, t, hbefore, rfl, hreads, rfl⟩ := hp.arg harg
    obtain ⟨behind, hbehind, rfl⟩ := blanks_split hrest
    obtain ⟨ts, rfl, hmore, rfl⟩ := ha _ _ _ hargs
    exact ⟨.more before t behind ts, by simp [QueryArgs.text], ⟨hbefore, hbehind, hreads, hmore⟩, rfl⟩

theorem PartStep.reading (hp : PartReadings e n) (ha : ArgsReadings e n) {q r : Bytes} {allowMatch : Bool}
    {a : SearchAst TagPattern} (h : PartStep e n q allowMatch a r) :
    (∃ lead o, ∃ t : QueryArgs, Blanks lead ∧ q = lead ++ (QueryTree.text (.op o t) ++ r) ∧
      QueryTree.Reads e (.op o t) r ∧ o.ast t.first t.rest = a) ∨
    (allowMatch = true ∧ openedOp (q.dropWhile isSpace) = none ∧ ∃ m,
      matchParse e q = some (m, r) ∧ a = .spec m) := by
  have hop : ∀ {o : SearchOp} {s : Bytes} (t : QueryArgs), q.dropWhile isSpace = o.text ++ s →
    s = t.text ++ r →
      ∃ lead, Blanks lead ∧ q = lead ++ (QueryTree.text (.op o t) ++ r) := by
    rintro o s t ho rfl
    obtain ⟨lead, hlead, hq⟩ := blanks_split ho
    exact ⟨lead, hlead, by simp [hq, QueryTree.text]⟩
  cases h with
  | and ho hargs =>
    obtain ⟨t, hs, hreads, rfl⟩ := ha _ _ _ hargs
    obtain ⟨lead, hlead, hq⟩ := hop t ho hs
    exact Or.inl ⟨lead, .and, t, hlead, hq, ⟨hreads, by simp⟩, rfl⟩
  | or ho hargs =>
    obtain ⟨t, hs, hreads, rfl⟩ := ha _ _ _ hargs
    obtain ⟨lead, hlead, hq⟩ := hop t ho hs
    exact Or.inl ⟨lead, .or, t, hlead, hq, ⟨hreads, by simp⟩, rfl⟩
  | hint ho hargs =>
    obtain ⟨t, hs, hreads, hast⟩ := ha _ _ _ hargs
    obtain ⟨lead, hlead, hq⟩ := hop t ho hs
    obtain ⟨rfl, rfl⟩ := List.cons.inj hast
    exact Or.inl ⟨lead, .hint, t, hlead, hq, ⟨hreads, by simp⟩, rfl⟩
  | not ho harg =>
    obtain ⟨before, t, hbefore, hs, hreads, rfl⟩ := hp.arg harg
    obtain ⟨lead, hlead, hq⟩ := hop (.last before t []) ho (by simp [hs, QueryArgs.text])
    exact Or.inl ⟨lead, .not, _, hlead, hq, ⟨⟨hbefore, by simp [Blanks], hreads⟩, fun _ => rfl⟩, rfl⟩
  | spec ho hallow hmatch => exact Or.inr ⟨hallow, ho, _, hmatch, rfl⟩

theorem PartReadings.step (hp : PartReadings e n) (ha : ArgsReadings e n) : PartReadings e (n + 1) := by
  intro q allowMatch a r h
  rcases (partParse_succ.mp h).reading hp ha with
    ⟨lead, o, t, hlead, hq, hreads, hast⟩ | ⟨-, ho, m, hmatch, rfl⟩
  · exact ⟨lead, .op o t, hlead, hq, hreads, hast⟩
  · obtain ⟨x, rfl⟩ := matchParse_suffix hmatch
    obtain ⟨c, s, hq, hc⟩ := matchParse_head hmatch
    rw [hq, List.dropWhile_cons_of_neg (by simp [hc]), ← hq] at ho
    exact ⟨[], .leaf x m (endsInRegex e (x ++ r)), by simp [Blanks], rfl, ⟨ho, hmatch, rfl⟩, rfl⟩

theorem readings (e : SearchEnv) (n : Nat) : PartReadings e n ∧ ArgsReadings e n := by
  induction n with
  | zero =>
    constructor
    · intro q allowMatch a r h
      cases h
    · intro q args r h
      cases h
  | succ n ih => exact ⟨ih.1.step ih.2, ArgsReadings.step ih.1 ih.2⟩

end Readings

/-! The inserted blanks. -/

section Inserted

variable {t t' : QueryTree} {v : Bytes}

theorem QueryTree.Inserted.regex_eq (h : t.Inserted t') : t'.regex = t.regex := by
  cases t with
  | leaf text m regex =>
    obtain rfl := h
    rfl
  | op o args =>
    obtain ⟨args', rfl, -⟩ := h
    rfl

theorem QueryTree.Inserted.dropWhile_text (h : t.Inserted t') (hreads : t.Reads e v) (w : Bytes) :
    (t'.text ++ w).dropWhile isSpace = t'.text ++ w := by
  cases t with
  | leaf text m regex =>
    obtain rfl := h
    obtain ⟨-, hmatch, -⟩ := hreads
    obtain ⟨c, s, hq, hc⟩ := matchParse_head hmatch
    cases text with
    | nil => exact absurd (matchParse_length hmatch) (by simp)
    | cons d text =>
      obtain ⟨rfl, -⟩ := List.cons.inj hq
      exact List.dropWhile_cons_of_neg (by simp [hc])
  | op o args =>
    obtain ⟨args', rfl, -⟩ := h
    rw [QueryTree.text, List.append_assoc, dropWhile_op]

end Inserted

mutual

theorem QueryTree.alike_text : ∀ (t t' : QueryTree) (v v' : Bytes), t.Inserted t' → Alike v v' →
    Alike (t.text ++ v) (t'.text ++ v')
  | .leaf text m regex, _, v, v', h, hv => by
    obtain rfl := h
    exact hv.append text
  | .op o args, _, v, v', h, hv => by
    obtain ⟨args', rfl, hargs⟩ := h
    have hopen : ∀ s, o.text ++ s = o.text.dropLast ++ 40 :: s := by
      intro s
      cases o <;> rfl
    rw [QueryTree.text, QueryTree.text, List.append_assoc, List.append_assoc, hopen, hopen]
    exact (args.alike_text args' v v' 40 hargs hv (Or.inl rfl)).append _

theorem QueryArgs.alike_text : ∀ (a a' : QueryArgs) (v v' : Bytes) (c : UInt8), a.Inserted a' → Alike v v' →
    c = 40 ∨ c = 44 → Alike (c :: (a.text ++ v)) (c :: (a'.text ++ v'))
  | .last before arg behind, _, v, v', c, h, hv, hc => by
    obtain ⟨i, arg', j, rfl, hi, hj, harg⟩ := h
    have hclose := ((hv.cons 41).before (Or.inr rfl) hj).append behind
    have hbefore := (arg.alike_text arg' _ _ harg hclose).append before
    simpa [QueryArgs.text] using hbefore.behindOpen hc hi
  | .more before arg behind args, _, v, v', c, h, hv, hc => by
    obtain ⟨i, arg', j, args', rfl, hi, hj, harg, hargs⟩ := h
    have hcomma := args.alike_text args' v v' 44 hargs hv (Or.inr rfl)
    have hbehind := (hcomma.before (Or.inl rfl) hj).append behind
    have hbefore := (arg.alike_text arg' _ _ harg hbehind).append before
    simpa [QueryArgs.text] using hbefore.behindOpen hc hi

end

/-! What the parser makes of the new text. -/

structure Follows (v v' : Bytes) : Prop where
  old : ArgFollow v
  new : ArgFollow v'
  alike : Alike v v'

theorem Follows.nil : Follows [] [] := ⟨by simp [ArgFollow], by simp [ArgFollow], Alike.refl []⟩

section Behind

variable {behind j s s' : Bytes} {c : UInt8}

theorem follows_behind (hc : c = 44 ∨ c = 41) (hbehind : Blanks behind) (hj : Blanks j)
    (h : Alike (c :: s) (c :: s')) : Follows (behind ++ c :: s) (behind ++ j ++ c :: s') := by
  refine ⟨hbehind.argFollow hc s, (hbehind.append hj).argFollow hc s', ?_⟩
  rw [List.append_assoc]
  exact (h.before hc hj).append behind

theorem head_behind (h : behind ++ j = []) : (behind ++ j ++ c :: s').head? = (behind ++ c :: s).head? := by
  obtain ⟨rfl, rfl⟩ := List.append_eq_nil_iff.mp h
  rfl

end Behind

section Texts

variable {before behind i j v w : Bytes} {t t' : QueryTree} {args : QueryArgs}

theorem QueryArgs.last_text (v : Bytes) :
    (QueryArgs.last before t behind).text ++ v = before ++ (t.text ++ (behind ++ 41 :: v)) := by
  simp [QueryArgs.text]

theorem QueryArgs.more_text (v : Bytes) :
    (QueryArgs.more before t behind args).text ++ v = before ++
    (t.text ++ (behind ++ 44 :: (args.text ++ v))) := by
  simp [QueryArgs.text]

theorem QueryTree.Inserted.skip (h : t.Inserted t') (hreads : t.Reads e v)
    (hi : Blanks i) (hbefore : Blanks before)
    (w : Bytes) : (i ++ before ++ (t'.text ++ w)).dropWhile isSpace = t'.text ++ w := by
  rw [(hi.append hbefore).dropWhile, h.dropWhile_text hreads]

end Texts

mutual

theorem QueryTree.parse_spared : ∀ (t t' : QueryTree) (v v' : Bytes), t.Reads e v →
    t.Inserted t' → t'.Spares →
    Follows v v' → (t.regex = true → v'.head? = v.head?) →
    ∃ n, partParse e n (t'.text ++ v') true = some (t.ast, v')
  | .leaf text m regex, _, v, v', hreads, h, _, hv, hre => by
    obtain rfl := h
    obtain ⟨hopen, hmatch, rfl⟩ := hreads
    have hmatch' := matchParse_follow hmatch hv.old hv.new hv.alike hre
    refine ⟨1, partParse_succ.mpr (.spec ?_ rfl hmatch')⟩
    obtain ⟨c, s, hq, hc⟩ := matchParse_head hmatch'
    rw [QueryTree.text, hq, List.dropWhile_cons_of_neg (by simp [hc]), ← hq]
    exact openedOp_follow hopen hv.new
  | .op o args, _, v, v', hreads, h, hspares, hv, _ => by
    obtain ⟨args', rfl, hargs⟩ := h
    obtain ⟨hparse, htight⟩ := args.parse_spared args' v v' hreads.1 hargs hspares.1 hv.alike
    by_cases ho : o = .not
    · subst ho
      obtain ⟨n, hn⟩ := htight (hspares.2 rfl)
      refine ⟨n + 1, ?_⟩
      rw [QueryTree.text, List.append_assoc]
      exact partParse_not_iff.mpr hn
    · obtain ⟨n, hn⟩ := hparse
      refine ⟨n + 1, ?_⟩
      rw [QueryTree.text, List.append_assoc]
      exact (partParse_op_iff ho).mpr hn

theorem QueryArgs.parse_spared : ∀ (a a' : QueryArgs) (v v' : Bytes), a.Reads e v →
    a.Inserted a' → a'.Spares →
    Alike v v' → (∃ n, argsParse e n (a'.text ++ v') = some (a.first :: a.rest, v')) ∧
      (a'.Tight → ∃ n, partParse e n ((a'.text ++ v').dropWhile isSpace) true = some (a.first, 41 :: v'))
  | .last before arg behind, _, v, v', hreads, h, hspares, hv => by
    obtain ⟨i, arg', j, rfl, hi, hj, harg⟩ := h
    obtain ⟨hbefore, hbehind, hreads⟩ := hreads
    obtain ⟨hspares, hre⟩ := hspares
    rw [harg.regex_eq] at hre
    obtain ⟨n, hn⟩ := arg.parse_spared arg' _ _ hreads harg hspares
      (follows_behind (Or.inr rfl) hbehind hj (hv.cons 41)) (fun hr => head_behind (hre hr))
    rw [← harg.skip hreads hi hbefore, ← QueryArgs.last_text] at hn
    constructor
    · exact ⟨n + 1, argsParse_succ.mpr (.last hn ((hbehind.append hj).dropWhile_end (Or.inr rfl) v'))⟩
    · intro htight
      rw [show behind ++ j = [] from htight] at hn ⊢
      exact ⟨n, hn⟩
  | .more before arg behind args, _, v, v', hreads, h, hspares, hv => by
    obtain ⟨i, arg', j, args', rfl, hi, hj, harg, hargs⟩ := h
    obtain ⟨hbefore, hbehind, hreads, hmore⟩ := hreads
    obtain ⟨hspares, hre, hmoreSpares⟩ := hspares
    rw [harg.regex_eq] at hre
    obtain ⟨n, hn⟩ := arg.parse_spared arg' _ _ hreads harg hspares
      (follows_behind (Or.inl rfl) hbehind hj (args.alike_text args' v v' 44 hargs hv (Or.inr rfl)))
      (fun hr => head_behind (hre hr))
    rw [← harg.skip hreads hi hbefore, ← QueryArgs.more_text] at hn
    obtain ⟨⟨m, hm⟩, -⟩ := args.parse_spared args' v v' hmore hargs hmoreSpares hv
    refine ⟨?_, False.elim⟩
    exact argsParse_more hn ((hbehind.append hj).dropWhile_end (Or.inl rfl) _) hm

end

section Arg

variable {t t' : QueryTree} {v v' r : Bytes} {n : Nat}

theorem QueryTree.regex_follow (hreads : t.Reads e v) (h : t.Inserted t') (hv : Follows v v')
    (hp : partParse e n (t'.text ++ v') true = some (t.ast, r)) (hre : t.regex = true) :
    ∀ c ∈ v'.head?, isSpace c = false := by
  cases t with
  | op o args => cases hre
  | leaf text m regex =>
    obtain rfl := h
    obtain ⟨-, hmatch, rfl⟩ := hreads
    intro c hc
    refine Bool.eq_false_iff.mpr fun hblank => ?_
    cases n with
    | zero => cases hp
    | succ n =>
      cases partParse_succ.mp hp with
      | spec _ _ hmatch' => exact matchParse_blank hmatch hv.old hv.alike hre hblank hc hmatch' rfl

end Arg

section ArgBehind

variable {t t' : QueryTree} {behind j s s' r : Bytes} {c : UInt8} {n : Nat}

theorem QueryTree.arg_spared (hreads : t.Reads e (behind ++ c :: s)) (h : t.Inserted t')
    (hbehind : Blanks behind) (hj : Blanks j) (hv : Follows (behind ++ c :: s) (behind ++ j ++ c :: s'))
    (hspares : t'.Spares) (hp : partParse e n (t'.text ++ (behind ++ j ++ c :: s')) true = some (t.ast, r)) :
    (t'.regex = true → behind ++ j = []) ∧ r = behind ++ j ++ c :: s' := by
  have hre : t'.regex = true → behind ++ j = [] := by
    intro hre
    rw [h.regex_eq] at hre
    have hhead := QueryTree.regex_follow hreads h hv hp hre
    have hblanks := hbehind.append hj
    cases hb : behind ++ j with
    | nil => rfl
    | cons b bs =>
      rw [hb] at hhead hblanks
      have hb' := (List.forall_mem_cons.mp hblanks).1
      rw [hhead b rfl] at hb'
      cases hb'
  refine ⟨hre, ?_⟩
  obtain ⟨m, hm⟩ := t.parse_spared t' _ _ hreads h hspares hv fun hr =>
    head_behind (hre (h.regex_eq.trans hr))
  exact (partParse_same hp hm).2

end ArgBehind

mutual

theorem QueryTree.spares_of_parse : ∀ (t t' : QueryTree) (v v' r : Bytes) (n : Nat) (allowMatch : Bool),
    t.Reads e v → t.Inserted t' → Follows v v' → partParse e n (t'.text ++ v') allowMatch = some (t.ast, r) →
    t'.Spares
  | .leaf text m regex, _, v, v', r, n, _, _, h, _, _ => by
    obtain rfl := h
    trivial
  | .op o args, _, v, v', r, 0, _, _, _, _, hp => by cases hp
  | .op o args, _, v, v', r, n + 1, _, hreads, h, hv, hp => by
    obtain ⟨args', rfl, hargs⟩ := h
    obtain ⟨hparse, htight⟩ := args.spares_of_parse args' v v' r n hreads.1 hargs hv.alike
    rw [QueryTree.text, List.append_assoc] at hp
    by_cases ho : o = .not
    · subst ho
      obtain ⟨hspares, htight'⟩ := htight (hreads.2 rfl) (partParse_not_iff.mp hp)
      exact ⟨hspares, fun _ => htight'⟩
    · exact ⟨hparse ((partParse_op_iff ho).mp hp), fun hnot => absurd hnot ho⟩

theorem QueryArgs.spares_of_parse : ∀ (a a' : QueryArgs) (v v' r : Bytes)
    (n : Nat), a.Reads e v → a.Inserted a' →
    Alike v v' → (argsParse e n (a'.text ++ v') = some (a.first :: a.rest, r) → a'.Spares) ∧
      (a.Tight → partParse e n ((a'.text ++ v').dropWhile isSpace) true = some (a.first, 41 :: r) →
        a'.Spares ∧ a'.Tight)
  | .last before arg behind, _, v, v', r, n, hreads, h, hv => by
    obtain ⟨i, arg', j, rfl, hi, hj, harg⟩ := h
    obtain ⟨hbefore, hbehind, hreads⟩ := hreads
    have hfollows := follows_behind (Or.inr rfl) hbehind hj (hv.cons 41)
    have hone : ∀ {n rest}, partParse e n
      ((QueryArgs.text (.last (i ++ before) arg' (behind ++ j)) ++ v').dropWhile
        isSpace) true = some (arg.ast, rest) →
        QueryArgs.Spares (.last (i ++ before) arg' (behind ++ j)) ∧ rest = behind ++ j ++ 41 :: v' := by
      intro n rest hp
      rw [QueryArgs.last_text, harg.skip hreads hi hbefore] at hp
      have hspares := arg.spares_of_parse arg' _ _ _ n true hreads harg hfollows hp
      obtain ⟨hre, hrest⟩ := QueryTree.arg_spared hreads harg hbehind hj hfollows hspares hp
      exact ⟨⟨hspares, hre⟩, hrest⟩
    constructor
    · intro hp
      cases n with
      | zero => cases hp
      | succ n =>
        cases argsParse_succ.mp hp with
        | last hfirst _ => exact (hone hfirst).1
        | more hfirst _ _ => exact (hone hfirst).1
    · intro _ hp
      obtain ⟨hspares, hrest⟩ := hone hp
      refine ⟨hspares, ?_⟩
      have hblanks := hbehind.append hj
      cases hb : behind ++ j with
      | nil => rfl
      | cons b bs =>
        rw [hb] at hrest hblanks
        obtain ⟨rfl, -⟩ := List.cons.inj hrest
        exact absurd (hblanks 41 (by simp)) (by decide)
  | .more before arg behind args, _, v, v', r, n, hreads, h, hv => by
    obtain ⟨i, arg', j, args', rfl, hi, hj, harg, hargs⟩ := h
    obtain ⟨hbefore, hbehind, hreads, hmore⟩ := hreads
    refine ⟨fun hp => ?_, False.elim⟩
    have hfollows := follows_behind (Or.inl rfl) hbehind hj
      (args.alike_text args' v v' 44 hargs hv (Or.inr rfl))
    cases n with
    | zero => cases hp
    | succ n =>
      cases argsParse_succ.mp hp with
      | more hfirst hrest hargsParse =>
        rw [QueryArgs.more_text, harg.skip hreads hi hbefore] at hfirst
        have hspares := arg.spares_of_parse arg' _ _ _ n true hreads harg hfollows hfirst
        obtain ⟨hre, rfl⟩ := QueryTree.arg_spared hreads harg hbehind hj hfollows hspares hfirst
        rw [(hbehind.append hj).dropWhile_end (Or.inl rfl)] at hrest
        obtain ⟨-, rfl⟩ := List.cons.inj hrest
        exact ⟨hspares, hre, (args.spares_of_parse args' v v' r n hmore hargs hv).1 hargsParse⟩

end

structure QueryReading (e : SearchEnv) (query : Bytes) (a : SearchAst TagPattern) where
  lead : Bytes
  op : SearchOp
  args : QueryArgs
  lead_blanks : Blanks lead
  query_eq : query = lead ++ (QueryTree.op op args).text
  reads : (QueryTree.op op args).Reads e []
  ast_eq : (QueryTree.op op args).ast = a

theorem queryReading_exists {query : Bytes} {a : SearchAst TagPattern} (h : searchParse e query = some a) :
    Nonempty (QueryReading e query a) := by
  obtain ⟨⟨n, hn⟩, -⟩ := searchParse_eq_some.mp h
  cases n with
  | zero => cases hn
  | succ n =>
    obtain ⟨hp, ha⟩ := readings e n
    rcases (partParse_succ.mp hn).reading hp ha with ⟨lead, o, t, hlead, hq, hreads, hast⟩ | ⟨hfalse, -⟩
    · rw [List.append_nil] at hq
      exact ⟨⟨lead, o, t, hlead, hq, hreads, hast⟩⟩
    · cases hfalse

/-- Blanks inserted in an accepted query change nothing if and only if none is before the closing
parenthesis of a `not` and none right behind a regular expression. -/
theorem blanks_ignored_iff (e : SearchEnv) {query : Bytes} {a : SearchAst TagPattern}
    (h : searchParse e query = some a) :
    Nonempty (QueryReading e query a) ∧ ∀ (rd : QueryReading e query a) (args' : QueryArgs),
      rd.args.Inserted args' →
      (searchParse e (rd.lead ++ (QueryTree.op rd.op args').text) = some a ↔
        (QueryTree.op rd.op args').Spares) := by
  refine ⟨queryReading_exists h, fun rd args' hargs => ?_⟩
  obtain ⟨lead, o, args, hlead, rfl, hreads, rfl⟩ := rd
  have hcompile := (searchParse_eq_some.mp h).2
  have hins : (QueryTree.op o args).Inserted (.op o args') := ⟨args', rfl, hargs⟩
  have hlead' : ∀ n, partParse e n (lead ++ (QueryTree.op o args').text) false =
      partParse e n ((QueryTree.op o args').text ++ []) true := by
    intro n
    rw [List.append_nil, QueryTree.text, partParse_lead hlead]
  rw [searchParse_eq_some]
  simp only [hlead']
  constructor
  · rintro ⟨⟨n, hn⟩, -⟩
    exact (QueryTree.op o args).spares_of_parse _ _ _ _ n true hreads hins Follows.nil hn
  · intro hspares
    exact ⟨(QueryTree.op o args).parse_spared _ _ _ hreads hins hspares Follows.nil (fun _ => rfl), hcompile⟩

theorem blanks_ignored_and :
    let a : SearchAst TagPattern := .and [.spec ⟨⟨.exact, [97]⟩, none⟩, .spec ⟨⟨.exact, [98]⟩, none⟩]
    searchParse plainSearchEnv [97, 110, 100, 40, 97, 44, 98, 41] = some a ∧
      searchParse plainSearchEnv [97, 110, 100, 40, 32, 97, 32, 44, 32, 98, 32, 41] = some a := by
  let ta : QueryTree := .leaf [97] ⟨⟨.exact, [97]⟩, none⟩ false
  let tb : QueryTree := .leaf [98] ⟨⟨.exact, [98]⟩, none⟩ false
  have hnil : Blanks [] := by simp [Blanks]
  have hblank : Blanks [32] := by
    intro c hc
    rw [List.mem_singleton.mp hc]
    rfl
  have hq : searchParse plainSearchEnv [97, 110, 100, 40, 97, 44, 98, 41] =
      some (.and [.spec ⟨⟨.exact, [97]⟩, none⟩, .spec ⟨⟨.exact, [98]⟩, none⟩]) := rfl
  have hreads : (QueryTree.op .and (.more [] ta [] (.last [] tb []))).Reads plainSearchEnv [] :=
    ⟨⟨hnil, hnil, ⟨rfl, rfl, rfl⟩, hnil, hnil, rfl, rfl, rfl⟩, by simp⟩
  have hins : (QueryArgs.more [] ta [] (.last [] tb [])).Inserted (.more [32] ta [32] (.last [32] tb [32])) :=
    ⟨[32], ta, [32], _, rfl, hblank, hblank, rfl, [32], tb, [32], rfl, hblank, hblank, rfl⟩
  refine ⟨hq, ((blanks_ignored_iff plainSearchEnv hq).2 ⟨[], .and, _, hnil, rfl, hreads, rfl⟩ _ hins).mpr ?_⟩
  simp [QueryTree.Spares, QueryArgs.Spares, QueryTree.regex, ta, tb]

theorem blanks_matter :
    searchParse plainSearchEnv [110, 111, 116, 40, 97, 41] = some (.not (.spec ⟨⟨.exact, [97]⟩, none⟩)) ∧
    searchParse plainSearchEnv [110, 111, 116, 40, 97, 32, 41] = none ∧
    searchParse plainSearchEnv [97, 110, 100, 40, 47, 97, 47, 41] = some (.and [.spec ⟨⟨.re, [97]⟩, none⟩]) ∧
    searchParse plainSearchEnv [97, 110, 100, 40, 47, 97, 47, 32, 41] =
      some (.and [.spec ⟨⟨.exact, [47, 97, 47]⟩, none⟩]) :=
  ⟨rfl, rfl, rfl, rfl⟩

end Reconnoiter
