import Reconnoiter.FiltersetAutoAdd

/-! The verdict of a filterset, as its rules read in their configured order give it. -/

namespace Reconnoiter

inductive WalkAction where
  | accept
  | deny
  | skipto (id : Bytes)
deriving DecidableEq

structure WalkRule where
  id : Option Bytes
  action : WalkAction
  matched : Bool

def continueAt (id : Bytes) (rs : List WalkRule) : List WalkRule :=
  if rs.any (·.id = some id) then rs.dropWhile (fun r => !decide (r.id = some id)) else rs

theorem length_continueAt (id : Bytes) (rs : List WalkRule) : (continueAt id rs).length ≤ rs.length := by
  unfold continueAt
  split_ifs
  · exact (List.dropWhile_suffix _).length_le
  · exact le_rfl

/-- The first matching rule that accepts or denies decides; without one the verdict is false. -/
def walk : List WalkRule → Bool
  | [] => false
  | r :: rs =>
    if r.matched then
      match r.action with
      | .accept => true
      | .deny => false
      | .skipto id => walk (continueAt id rs)
    else walk rs
termination_by rs => rs.length
decreasing_by
  · exact Nat.lt_succ_of_le (length_continueAt id rs)
  · exact Nat.lt_succ_self _

def walkAction (type : Bytes) : Option WalkAction :=
  if type = acceptText ∨ type = allowText then some .accept
  else if type = denyText then some .deny
  else if skiptoText.isPrefixOf type then some (.skipto (type.drop skiptoText.length))
  else none

variable {Re Ast : Type}

def FilterRule.Unlimited (r : FilterRule Re Ast) : Prop := ∀ f, (r.matcher f).autoHashMax = 0

structure FilterRule.Static (r : FilterRule Re Ast) : Prop where
  limit : r.Unlimited
  type : r.type ≠ .addMeasurementTag
  skipto : r.type = .skipto → r.skipto.isSome

def FilterRule.Alike (r r' : FilterRule Re Ast) : Prop := ∃ last, r' = { r with lastFlush := last }

section Compiled

variable (env : FilterEnv Re Ast) (c : FilterCall) (mtset : List FilterTag)

def FilterRule.matched (r : FilterRule Re Ast) : Bool := decide (∀ f, r.need env c mtset f = false)

def FilterRule.action (r : FilterRule Re Ast) : WalkAction :=
  match r.type with
  | .accept => .accept
  | .skipto => .skipto (r.skipto.getD [])
  | _ => .deny

def FilterRule.walkRule (r : FilterRule Re Ast) : WalkRule := ⟨r.ruleid, r.action, r.matched env c mtset⟩

variable {env c mtset} {r r' : FilterRule Re Ast} {st : FilterState}

theorem FilterRule.Alike.matched_eq (h : r.Alike r') : r'.matched env c mtset = r.matched env c mtset := by
  obtain ⟨last, rfl⟩ := h
  rfl

theorem FilterRule.Alike.static (h : r.Alike r') (hr : r.Static) : r'.Static := by
  obtain ⟨last, rfl⟩ := h
  exact ⟨hr.limit, hr.type, hr.skipto⟩

theorem applyRule_unlimited (h : r.Unlimited) :
    r.Alike (applyRule env c r st).1 ∧
      (applyRule env c r st).2 = if r.matched env c st.mtset then r.taken env c.metric st else .next st := by
  unfold applyRule FilterRule.matched
  dsimp only
  by_cases hmatch : ∀ f, r.need env c st.mtset f = false
  · simp only [hmatch, implies_true, if_true, decide_true]
    exact ⟨⟨r.lastFlush, rfl⟩, trivial⟩
  · obtain ⟨last, hflush⟩ := flush_of_no_limit h c.now
    have hadd : ¬ ∀ f, ((r.flush c.now).matcher f).checkAdd (r.need env c st.mtset f) = true := by
      intro hall
      refine hmatch fun f => ?_
      have hf := hall f
      rw [hflush] at hf
      simpa [Matcher.checkAdd, h f] using hf
    rw [if_neg hmatch, if_neg hadd, decide_eq_false hmatch]
    exact ⟨⟨last, hflush⟩, rfl⟩

theorem taken_static (h : r.Static) (metric : FilterMetric) (st : FilterState) :
    r.taken env metric st =
      match r.action with
      | .accept => .stop true
      | .deny => .stop false
      | .skipto _ => .next { st with skiptoRule := r.skiptoRule } := by
  have htype := h.type
  unfold FilterRule.taken FilterRule.action
  cases ht : r.type with
  | accept => rfl
  | deny => rfl
  | skipto => rfl
  | addMeasurementTag => exact absurd ht htype

theorem applyRules_skip {i j : Nat} {rs : List (FilterRule Re Ast)} (hj : j < rs.length) (st : FilterState) :
    (applyRules env c i rs { st with skiptoRule := some (i + j) }).2.1 =
      (applyRules env c (i + j) (rs.drop j) { st with skiptoRule := none }).2.1 := by
  induction rs generalizing i j with
  | nil => exact absurd hj (Nat.not_lt_zero _)
  | cons r rs ih =>
    cases j with
    | zero =>
      simp only [applyRules, Nat.add_zero, Option.any_some, Option.any_none, ne_eq,
        not_true_eq_false, decide_false,
        Bool.false_eq_true, if_false, List.drop_zero]
      generalize applyRule env c r _ = result
      obtain ⟨r', next | ret⟩ := result <;> rfl
    | succ j =>
      have hne : i + (j + 1) ≠ i := by omega
      have hnext : i + (j + 1) = i + 1 + j := by omega
      simp only [applyRules, Option.any_some, hne, ne_eq, not_false_eq_true,
        decide_true, if_true, List.drop_succ_cons]
      rw [hnext]
      exact ih (Nat.lt_of_succ_lt_succ hj)

theorem forall₂_alike_refl (rs : List (FilterRule Re Ast)) : List.Forall₂ FilterRule.Alike rs rs :=
  List.forall₂_same.mpr fun r _ => ⟨r.lastFlush, rfl⟩

theorem applyRules_alike {rs : List (FilterRule Re Ast)} (h : ∀ r ∈ rs, r.Unlimited)
    (i : Nat) (st : FilterState) :
    List.Forall₂ FilterRule.Alike rs (applyRules env c i rs st).1 := by
  induction rs generalizing i st with
  | nil => exact List.Forall₂.nil
  | cons r rs ih =>
    have hrs : ∀ r ∈ rs, r.Unlimited := fun r hr => h r (List.mem_cons_of_mem _ hr)
    by_cases hskip : st.skiptoRule.any (· ≠ i) = true
    · simp only [applyRules, hskip, if_true]
      exact List.Forall₂.cons ⟨r.lastFlush, rfl⟩ (ih hrs _ _)
    · obtain ⟨halike, -⟩ := @applyRule_unlimited _ _ env c r { st with skiptoRule := none }
        (h r List.mem_cons_self)
      rw [applyRules, if_neg hskip]
      generalize applyRule env c r { st with skiptoRule := none } = result at halike
      obtain ⟨r', next | ret⟩ := result
      · exact List.Forall₂.cons halike (ih hrs _ _)
      · exact List.Forall₂.cons halike (forall₂_alike_refl rs)

theorem skipto_of_action (h : r.Static) {id : Bytes} (ha : r.action = .skipto id) : r.skipto = some id := by
  unfold FilterRule.action at ha
  cases ht : r.type with
  | skipto =>
    obtain ⟨s, hs⟩ := Option.isSome_iff_exists.mp (h.skipto ht)
    simpa [ht, hs] using ha
  | accept => simp [ht] at ha
  | deny => simp [ht] at ha
  | addMeasurementTag => simp [ht] at ha

theorem length_resolveSkipto (i : Nat) (cs : List (FilterRule Re Ast)) :
    (resolveSkipto i cs).length = cs.length := by
  induction cs generalizing i with
  | nil => rfl
  | cons r cs ih => simp [resolveSkipto, ih]

theorem drop_resolveSkipto (i j : Nat) (cs : List (FilterRule Re Ast)) :
    (resolveSkipto i cs).drop j = resolveSkipto (i + j) (cs.drop j) := by
  induction cs generalizing i j with
  | nil => simp [resolveSkipto]
  | cons r cs ih =>
    cases j with
    | zero => rfl
    | succ j =>
      have hnext : i + (j + 1) = i + 1 + j := by omega
      rw [resolveSkipto, List.drop_succ_cons, List.drop_succ_cons, ih, hnext]

theorem continueAt_map (id : Bytes) (cs : List (FilterRule Re Ast)) :
    continueAt id (cs.map (FilterRule.walkRule env c mtset)) =
      ((cs.findIdx? (·.ruleid = some id)).elim cs cs.drop).map (FilterRule.walkRule env c mtset) := by
  have hmem : (cs.map (FilterRule.walkRule env c mtset)).any (fun r => decide (r.id = some id)) =
      cs.any fun r => decide (r.ruleid = some id) := by
    rw [List.any_map]
    rfl
  unfold continueAt
  rw [hmem]
  cases hfind : cs.findIdx? (fun r => decide (r.ruleid = some id)) with
  | none =>
    have hnone : cs.any (fun r => decide (r.ruleid = some id)) = false := by
      rw [List.any_eq_false]
      intro r hr
      rw [List.findIdx?_eq_none_iff.mp hfind r hr]
      exact Bool.false_ne_true
    rw [hnone]
    rfl
  | some j =>
    obtain ⟨hj, hidx⟩ := List.findIdx?_eq_some_iff_findIdx_eq.mp hfind
    have hsome : cs.any (fun r => decide (r.ruleid = some id)) = true := by
      rw [List.any_eq_true, ← List.findIdx_lt_length, hidx]
      exact hj
    have hdrop : cs.dropWhile (fun r => !decide (r.ruleid = some id)) = cs.drop j := by
      rw [List.dropWhile_eq_drop_findIdx_not, ← hidx]
      simp only [Bool.not_not]
    rw [hsome, if_pos rfl, List.dropWhile_map]
    exact congrArg _ hdrop

theorem verdict_walk {cs rs : List (FilterRule Re Ast)} {i : Nat} (h : ∀ r ∈ cs, r.Static)
    (halike : List.Forall₂ FilterRule.Alike (resolveSkipto i cs) rs) :
    (applyRules env c i rs ⟨none, mtset, none, false⟩).2.1.getD false =
      walk (cs.map (FilterRule.walkRule env c mtset)) := by
  induction hn : cs.length using Nat.strong_induction_on generalizing cs rs i with
  | _ n ih =>
    subst hn
    cases cs with
    | nil =>
      cases halike
      simp [applyRules, walk]
    | cons r cs =>
      have hcs : ∀ r ∈ cs, r.Static := fun r hr => h r (List.mem_cons_of_mem _ hr)
      rw [resolveSkipto] at halike
      cases halike with
      | @cons _ r' _ rs' hhead htail =>
        have hr := h r List.mem_cons_self
        have hstatic : r'.Static := hhead.static ⟨hr.limit, hr.type, hr.skipto⟩
        have hmatched : r'.matched env c mtset = r.matched env c mtset := hhead.matched_eq
        have hnext := ih cs.length (Nat.lt_succ_self _) hcs htail rfl
        obtain ⟨-, hresult⟩ := @applyRule_unlimited _ _ env c r' ⟨none, mtset, none, false⟩ hstatic.limit
        have htaken := @taken_static _ _ env r' hstatic c.metric ⟨none, mtset, none, false⟩
        obtain ⟨last, hr'⟩ := hhead
        have haction : r'.action = r.action := by rw [hr']; rfl
        rw [hmatched, htaken, haction] at hresult
        rw [applyRules, if_neg (by simp), List.map_cons, walk]
        have hwm : (r.walkRule env c mtset).matched = r.matched env c mtset := rfl
        have hwa : (r.walkRule env c mtset).action = r.action := rfl
        rw [hwm, hwa]
        generalize applyRule env c r' _ = result at hresult
        obtain ⟨r'', result⟩ := result
        dsimp only at hresult
        subst hresult
        cases hm : r.matched env c mtset with
        | false => simpa using hnext
        | true =>
          cases ha : r.action with
          | accept => rfl
          | deny => rfl
          | skipto id =>
            simp only [if_true]
            have hid : r.skipto = some id := skipto_of_action hr ha
            rw [continueAt_map]
            cases hfind : cs.findIdx? (fun r => decide (r.ruleid = some id)) with
            | none =>
              have hto : r'.skiptoRule = none := by
                rw [hr']
                simp [hid, hfind]
              rw [hto]
              exact hnext
            | some j =>
              obtain ⟨hj, -⟩ := List.findIdx?_eq_some_iff_findIdx_eq.mp hfind
              have hto : r'.skiptoRule = some (i + 1 + j) := by
                rw [hr']
                simp [hid, hfind]
              have hlen : j < rs'.length := by
                rw [← htail.length_eq, length_resolveSkipto]
                exact hj
              have hdropped : List.Forall₂ FilterRule.Alike (resolveSkipto (i + 1 + j) (cs.drop j))
                (rs'.drop j) := by
                rw [← drop_resolveSkipto]
                exact List.forall₂_drop j htail
              have hless : (cs.drop j).length < (r :: cs).length := by
                rw [List.length_drop, List.length_cons]
                omega
              rw [hto, applyRules_skip hlen ⟨none, mtset, none, false⟩]
              exact ih _ hless (fun r hr => hcs r (List.mem_of_mem_drop hr)) hdropped rfl

end Compiled

def FilterEvent.mtset (env : FilterEnv Re Ast) (e : FilterEvent) : List FilterTag :=
  ((env.parseTags (e.metric.fullName.take e.metric.metricName.length)).getD
    (e.metric.fullName.length, [], [])).2.2

def RuleXml.walkRule (read : Bytes → Bytes) (env : FilterEnv Re Ast) (fs : FiltersetXml) (e : FilterEvent)
    (x : RuleXml) : Option WalkRule :=
  (x.type.bind fun type => walkAction (read type)).map fun action =>
    { id := x.id.map read, action
      matched := (compileXmlRule env fs x).any (FilterRule.matched env (e.call env) (e.mtset env)) }

def FiltersetXml.walkRules (read : Bytes → Bytes) (env : FilterEnv Re Ast)
    (fs : FiltersetXml) (e : FilterEvent) :
    List WalkRule :=
  fs.rules.filterMap (RuleXml.walkRule read env fs e)

def RuleHead.action (head : RuleHead) : WalkAction :=
  match head.type with
  | .accept => .accept
  | .skipto => .skipto (head.skipto.getD [])
  | _ => .deny

theorem ruleHead_walk {type : Bytes} (h : ¬ addMeasurementTagText <+: type) :
    (ruleHead type).map RuleHead.action = walkAction type ∧
      ∀ head, ruleHead type = some head → head.type ≠ .addMeasurementTag ∧
        (head.type = .skipto → head.skipto.isSome) := by
  have hadd : addMeasurementTagText.isPrefixOf type = false := by
    rw [Bool.eq_false_iff]
    exact fun hp => h (List.isPrefixOf_iff_prefix.mp hp)
  by_cases hskip : skiptoText.isPrefixOf type = true
  · have haccept : ¬ (type = acceptText ∨ type = allowText) := by
      rintro (rfl | rfl) <;> exact absurd hskip (by decide)
    have hdeny : type ≠ denyText := by
      rintro rfl
      exact absurd hskip (by decide)
    simp [ruleHead, walkAction, knownType, hskip, haccept, hdeny, RuleHead.action]
  · rw [Bool.not_eq_true] at hskip
    by_cases haccept : type = acceptText ∨ type = allowText
    · have hknown : knownType type = true := by rcases haccept with rfl | rfl <;> decide
      simp [ruleHead, walkAction, hknown, hskip, hadd, haccept, RuleHead.action]
    · by_cases hdeny : type = denyText
      · subst hdeny
        have hhead : ruleHead denyText = some ⟨.deny, none, none, none⟩ := by rfl
        refine ⟨by rw [hhead]; rfl, fun head he => ?_⟩
        rw [hhead] at he
        obtain rfl := Option.some.inj he
        exact ⟨by decide, by decide⟩
      · rw [not_or] at haccept
        simp [ruleHead, walkAction, knownType, hskip, hadd, haccept, hdeny]

section Configured

variable {env : FilterEnv Re Ast} {fs : FiltersetXml} {x : RuleXml} {r : FilterRule Re Ast}

theorem tagsCompile_eq (r : FilterRule Re Ast) (kind : TagSearchKind) (expr : Bytes) :
    ∃ matcher st mt, r.tagsCompile env kind expr = { r with matcher, stsearch := st, mtsearch := mt } := by
  unfold FilterRule.tagsCompile
  split_ifs
  · exact ⟨r.matcher, r.stsearch, r.mtsearch, rfl⟩
  · cases env.searchParse expr with
    | some search =>
      cases kind with
      | stream => exact ⟨r.matcher, some search, r.mtsearch, rfl⟩
      | measurement => exact ⟨r.matcher, r.stsearch, some search, rfl⟩
    | none => exact ⟨_, r.stsearch, r.mtsearch, rfl⟩

theorem compileTags_eq (r : FilterRule Re Ast) (st mt : Option Bytes) :
    ∃ matcher s m, r.compileTags env st mt = { r with matcher, stsearch := s, mtsearch := m } := by
  obtain ⟨matcher, s, m, hst⟩ : ∃ matcher s m, st.elim r (r.tagsCompile env .stream) =
      { r with matcher, stsearch := s, mtsearch := m } := by
    cases st with
    | none => exact ⟨r.matcher, r.stsearch, r.mtsearch, rfl⟩
    | some expr => exact tagsCompile_eq r .stream expr
  unfold FilterRule.compileTags
  dsimp only
  rw [hst]
  cases mt with
  | none => exact ⟨matcher, s, m, rfl⟩
  | some expr => exact tagsCompile_eq { r with matcher, stsearch := s, mtsearch := m } .measurement expr

theorem compileXmlRule_head (h : compileXmlRule env fs x = some r) :
    ∃ head, x.head = some head ∧ r.type = head.type ∧ r.skipto = head.skipto ∧ r.tagCat = head.tagCat ∧
      r.tagVal = head.tagVal ∧ r.ruleid = bufferText x.id := by
  obtain ⟨head, hhead, rfl⟩ := Option.map_eq_some_iff.mp h
  obtain ⟨matcher, s, m, he⟩ := @compileTags_eq _ _ env (newRule (bufferText x.id) head
    (fun f => htCompile env f (x.field f)) (flushInterval (fs.xmlPeriod x))) x.streamTags x.measurementTags
  rw [he]
  exact ⟨head, hhead, rfl, rfl, rfl, rfl, rfl⟩

theorem compileXmlRule_unlimited (h : compileXmlRule env fs x = some r)
    (hauto : ∀ f, (x.field f).autoAdd = none) :
    r.Unlimited := by
  intro f
  rw [(compileXmlRule_spec env h).1 f, hauto f]
  split_ifs <;> rfl

theorem compileXmlRule_walk (hauto : ∀ f, (x.field f).autoAdd = none)
    (htags : ∀ type, x.type = some type → ¬ addMeasurementTagText <+: type) (e : FilterEvent) :
    (compileXmlRule env fs x).map (FilterRule.walkRule env (e.call env) (e.mtset env)) =
        x.walkRule cutAttr env fs e ∧
      ∀ r, compileXmlRule env fs x = some r → r.Static := by
  have hcut : ∀ type, x.type = some type → ¬ addMeasurementTagText <+: cutAttr type :=
    fun type ht hp => htags type ht (hp.trans (List.take_prefix _ _))
  cases ht : x.type with
  | none => simp [RuleXml.walkRule, compileXmlRule, RuleXml.head, bufferText, ht]
  | some type =>
    obtain ⟨hhead, hspec⟩ := ruleHead_walk (hcut type ht)
    have hx : x.head = ruleHead (cutAttr type) := by simp [RuleXml.head, bufferText, ht, cutAttr]
    have hwalk : x.walkRule cutAttr env fs e =
      ((ruleHead (cutAttr type)).map RuleHead.action).map fun action =>
        { id := x.id.map cutAttr, action
          matched := (compileXmlRule env fs x).any (FilterRule.matched env (e.call env) (e.mtset env)) } := by
      rw [hhead, RuleXml.walkRule, ht]
      rfl
    cases hr : ruleHead (cutAttr type) with
    | none => simp [hwalk, compileXmlRule, hx, hr]
    | some head =>
      obtain ⟨hne, hsome⟩ := hspec head hr
      obtain ⟨r, hcompile⟩ : ∃ r, compileXmlRule env fs x = some r := by simp [compileXmlRule, hx, hr]
      obtain ⟨head', hhead', htype, hskipto, -, -, hid⟩ := compileXmlRule_head hcompile
      obtain rfl : head = head' := by rwa [hx, hr, Option.some.injEq] at hhead'
      rw [hwalk, hcompile, hr]
      constructor
      · simp only [Option.map_some, Option.any_some, FilterRule.walkRule,
          FilterRule.action, RuleHead.action, htype,
          hskipto, hid]
        rfl
      · rintro _ ⟨⟩
        refine ⟨compileXmlRule_unlimited hcompile hauto, htype.trans_ne hne, fun hs => ?_⟩
        rw [hskipto]
        exact hsome (htype.symm.trans hs)

theorem compileXml_rules {set : Filterset (FilterRule Re Ast)} (h : compileXml env fs = some set) :
    set.rules = resolveSkipto 0 (fs.rules.filterMap (compileXmlRule env fs)) := by
  obtain ⟨name, -, hset⟩ := Option.bind_eq_some_iff.mp h
  split_ifs at hset
  rw [← Option.some.inj hset]

theorem forall_resolved {P : FilterRule Re Ast → Prop} (hP : ∀ r next, P r → P { r with skiptoRule := next })
    {cs : List (FilterRule Re Ast)} (h : ∀ r ∈ cs, P r) (i : Nat) : ∀ r ∈ resolveSkipto i cs, P r := by
  induction cs generalizing i with
  | nil => simp [resolveSkipto]
  | cons r cs ih =>
    intro r' hr'
    rcases List.mem_cons.mp hr' with rfl | hmem
    · exact hP r _ (h r List.mem_cons_self)
    · exact ih (fun r hr => h r (List.mem_cons_of_mem _ hr)) (i + 1) r' hmem

theorem forall_of_forall₂ {R : FilterRule Re Ast → FilterRule Re Ast → Prop} {P : FilterRule Re Ast → Prop}
    (hP : ∀ r r', R r r' → P r → P r') {rs rs' : List (FilterRule Re Ast)} (hall : List.Forall₂ R rs rs')
    (h : ∀ r ∈ rs, P r) : ∀ r ∈ rs', P r := by
  induction hall with
  | nil => simp
  | @cons r r' rs rs' hhead _ ih =>
    intro x hx
    rcases List.mem_cons.mp hx with rfl | hx
    · exact hP r _ hhead (h r List.mem_cons_self)
    · exact ih (fun r hr => h r (List.mem_cons_of_mem _ hr)) x hx

theorem forall₂_alike_trans {rs rs' rs'' : List (FilterRule Re Ast)}
    (h : List.Forall₂ FilterRule.Alike rs rs')
    (h' : List.Forall₂ FilterRule.Alike rs' rs'') : List.Forall₂ FilterRule.Alike rs rs'' := by
  induction h generalizing rs'' with
  | nil => exact h'
  | @cons r r' rs rs' hhead _ ih =>
    cases h' with
    | cons hhead' htail' =>
      obtain ⟨last, rfl⟩ := hhead
      obtain ⟨last', rfl⟩ := hhead'
      exact List.Forall₂.cons ⟨last', rfl⟩ (ih htail')

theorem applyFilterset_verdict (env : FilterEnv Re Ast) (rules : List (FilterRule Re Ast)) (e : FilterEvent) :
    (applyFilterset env rules e).2.1 =
      (applyRules env (e.call env) 0 rules ⟨none, e.mtset env, none, false⟩).2.1.getD false := by
  unfold applyFilterset FilterEvent.call FilterEvent.mtset
  dsimp only
  split <;> rename_i h <;> rw [h] <;> rfl

theorem runFilterset_walk {cs rs : List (FilterRule Re Ast)} (h : ∀ r ∈ cs, r.Static)
    (halike : List.Forall₂ FilterRule.Alike (resolveSkipto 0 cs) rs) (events : List FilterEvent) :
    (runFilterset env rs events).map Prod.fst =
      events.map fun e => walk (cs.map (FilterRule.walkRule env (e.call env) (e.mtset env))) := by
  induction events generalizing rs with
  | nil => rfl
  | cons e events ih =>
    have hresolved := forall_resolved (fun _ _ hr => ⟨hr.limit, hr.type, hr.skipto⟩) h 0
    have hrs := forall_of_forall₂ (fun _ _ hra hr => hra.static hr) halike hresolved
    have hnext : List.Forall₂ FilterRule.Alike (resolveSkipto 0 cs) (applyFilterset env rs e).1 := by
      rw [applyFilterset_call]
      exact forall₂_alike_trans halike (applyRules_alike (fun r hr => (hrs r hr).limit) 0 _)
    rw [runFilterset, List.map_cons, List.map_cons, ih hnext, applyFilterset_verdict, verdict_walk h halike]

end Configured

structure FiltersetXml.Static (fs : FiltersetXml) : Prop where
  autoAdd : ∀ x ∈ fs.rules, ∀ f, (x.field f).autoAdd = none
  tags : ∀ x ∈ fs.rules, ∀ type, x.type = some type → ¬ addMeasurementTagText <+: type

theorem FiltersetXml.Static.compiled {fs : FiltersetXml} (h : fs.Static) (env : FilterEnv Re Ast) :
    (∀ r ∈ fs.rules.filterMap (compileXmlRule env fs), r.Static) ∧
      ∀ e, (fs.rules.filterMap (compileXmlRule env fs)).map
        (FilterRule.walkRule env (e.call env) (e.mtset env)) =
        fs.walkRules cutAttr env e := by
  constructor
  · intro r hr
    obtain ⟨x, hx, hcompile⟩ := List.mem_filterMap.mp hr
    exact (compileXmlRule_walk (h.autoAdd x hx) (h.tags x hx) ⟨⟨[], [], []⟩, ⟨[], none⟩, .zero⟩).2 r hcompile
  · intro e
    rw [FiltersetXml.walkRules, List.map_filterMap]
    exact List.filterMap_congr fun x hx => (compileXmlRule_walk (h.autoAdd x hx) (h.tags x hx) e).1

/-- Every application of a filterset without auto_add and without tag-adding rules gives the
verdict of the walk over the configured rules, with the attributes as far as they are read. -/
theorem filterset_walk (env : FilterEnv Re Ast) {fs : FiltersetXml} {set : Filterset (FilterRule Re Ast)}
    (hset : compileXml env fs = some set) (hstatic : fs.Static) (events : List FilterEvent) :
    (runFilterset env set.rules events).map Prod.fst = events.map fun e =>
      walk (fs.walkRules cutAttr env e) := by
  obtain ⟨hcompiled, hrules⟩ := hstatic.compiled env
  have hrefl : List.Forall₂ FilterRule.Alike
    (resolveSkipto 0 (fs.rules.filterMap (compileXmlRule env fs))) set.rules := by
    rw [compileXml_rules hset]
    exact forall₂_alike_refl _
  rw [runFilterset_walk hcompiled hrefl]
  exact List.map_congr_left fun e _ => congrArg walk (hrules e)

def bareRule (type : Bytes) (id : Option Bytes) : RuleXml where
  type := some type
  id
  filterFlushPeriod := none
  field _ := ⟨[], none, none⟩
  streamTags := none
  measurementTags := none

def skippingFilterset (id : Bytes) : FiltersetXml where
  name := some []
  seq := none
  filterFlushPeriod := none
  groupFlushPeriod := none
  filtersetsFlushPeriod := none
  rules := [bareRule (skiptoText ++ id) none, bareRule acceptText none, bareRule denyText (some id)]

def anyEvent : FilterEvent := ⟨⟨[], [], []⟩, ⟨[109], none⟩, .zero⟩

theorem skippingFilterset_static (id : Bytes) : (skippingFilterset id).Static := by
  constructor
  · simp [skippingFilterset, bareRule]
  · simp only [skippingFilterset, bareRule, List.mem_cons, List.not_mem_nil, or_false]
    rintro x (rfl | rfl | rfl) type ⟨⟩
    · simp [addMeasurementTagText, skiptoText]
    · decide
    · decide

/-- The first rule skips to the third, past the one that accepts, and the event is denied. -/
theorem filterset_walk_skipping :
    ∃ set, compileXml plainLibs.env (skippingFilterset [97]) = some set ∧
      (runFilterset plainLibs.env set.rules [anyEvent]).map Prod.fst = [false] := by
  refine ⟨_, rfl, (filterset_walk plainLibs.env rfl (skippingFilterset_static [97]) [anyEvent]).trans ?_⟩
  decide +kernel

theorem bareRule_matched (env : FilterEnv Re Ast) (fs : FiltersetXml) {type : Bytes} {id : Option Bytes}
    (h : (ruleHead (cutAttr type)).isSome) (c : FilterCall) (mtset : List FilterTag) :
    (compileXmlRule env fs (bareRule type id)).any (FilterRule.matched env c mtset) = true := by
  obtain ⟨head, hhead⟩ := Option.isSome_iff_exists.mp h
  have hx : (bareRule type id).head = some head := hhead
  rw [compileXmlRule, hx, Option.map_some, Option.any_some, FilterRule.matched, decide_eq_true_iff]
  intro f
  cases f <;> rfl

theorem cutAttr_skipto {n : Nat} (h : 4088 ≤ n) :
    cutAttr (skiptoText ++ List.replicate n 97) = skiptoText ++ List.replicate 4088 97 := by
  have hlen : skiptoText.length ≤ maxMetricTaggedName - 1 := by decide
  have hrest : maxMetricTaggedName - 1 - skiptoText.length = 4088 := by decide
  rw [cutAttr, List.take_append, List.take_of_length_le hlen, hrest, List.take_replicate, Nat.min_eq_left h]

theorem walkAction_skipto (id : Bytes) : walkAction (skiptoText ++ id) = some (.skipto id) := by
  simp [walkAction, skiptoText, acceptText, allowText, denyText]

theorem ruleHead_skipto (id : Bytes) : (ruleHead (skiptoText ++ id)).isSome := by
  simp [ruleHead, knownType]

def longId : Bytes := List.replicate 4089 97

theorem skippingFilterset_rules (read : Bytes → Bytes) (env : FilterEnv Re Ast)
    (e : FilterEvent) {name : Bytes}
    (hread : read (skiptoText ++ longId) = skiptoText ++ name) (hid : read longId = longId)
    (haccept : read acceptText = acceptText) (hdeny : read denyText = denyText) :
    (skippingFilterset longId).walkRules read env e =
      [⟨none, .skipto name, true⟩, ⟨none, .accept, true⟩, ⟨some longId, .deny, true⟩] := by
  have hskip : (ruleHead (cutAttr (skiptoText ++ longId))).isSome := by
    rw [longId, cutAttr_skipto (by decide)]
    exact ruleHead_skipto _
  have hrule : ∀ {type id action}, walkAction (read type) = some action → (ruleHead (cutAttr type)).isSome →
      (bareRule type id).walkRule read env (skippingFilterset longId) e =
        some ⟨id.map read, action, true⟩ := by
    intro type id action haction hhead
    rw [RuleXml.walkRule, bareRule_matched env _ hhead]
    simp [bareRule, haction]
  have hfirst := @hrule _ none _ ((congrArg walkAction hread).trans (walkAction_skipto name)) hskip
  have hsecond := @hrule acceptText none .accept (by rw [haccept]; rfl) (by decide)
  have hthird := @hrule denyText (some longId) .deny (by rw [hdeny]; rfl) (by decide)
  rw [Option.map_some, hid] at hthird
  have hrules : (skippingFilterset longId).rules =
      [bareRule (skiptoText ++ longId) none, bareRule acceptText none, bareRule denyText (some longId)] := rfl
  rw [FiltersetXml.walkRules, hrules, List.filterMap_cons_some hfirst, List.filterMap_cons_some hsecond,
    List.filterMap_cons_some hthird]
  rfl

theorem walk_skipping (name id : Bytes) :
    walk [⟨none, .skipto name, true⟩, ⟨none, .accept, true⟩, ⟨some id, .deny, true⟩] =
      decide (id ≠ name) := by
  by_cases h : id = name <;> simp [walk, continueAt, h]

theorem filterset_walk_long_id :
    (∃ set, compileXml plainLibs.env (skippingFilterset longId) = some set ∧
      (applyFilterset plainLibs.env set.rules anyEvent).2.1 = true) ∧
    walk ((skippingFilterset longId).walkRules id plainLibs.env anyEvent) = false := by
  have hne : longId ≠ List.replicate 4088 97 := by
    intro h
    have hlen := congrArg List.length h
    rw [longId, List.length_replicate, List.length_replicate] at hlen
    omega
  have hlong : cutAttr longId = longId :=
    List.take_of_length_le (by rw [longId, List.length_replicate]; decide)
  constructor
  · obtain ⟨hcompiled, hrules⟩ := (skippingFilterset_static longId).compiled plainLibs.env
    refine ⟨_, rfl, ?_⟩
    rw [applyFilterset_verdict, verdict_walk hcompiled (forall₂_alike_refl _), hrules,
      skippingFilterset_rules cutAttr plainLibs.env anyEvent (cutAttr_skipto (by decide)) hlong
        (by decide) (by decide),
      walk_skipping]
    exact decide_eq_true hne
  · rw [skippingFilterset_rules id plainLibs.env anyEvent rfl rfl rfl rfl, walk_skipping]
    exact decide_eq_false (not_not.mpr rfl)

end Reconnoiter
