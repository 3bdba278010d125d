import Reconnoiter.FiltersetMetric

/-! Rules that add values to their tables by themselves, up to a limit and until the next
flush, over traces of evaluations. -/

namespace Reconnoiter

variable {Re Ast : Type}

def TimeVal.micros (t : TimeVal) : Nat := t.sec * 1000000 + t.usec

def TimeVal.Normal (t : TimeVal) : Prop := t.usec < 1000000

section Times

variable {a b : TimeVal}

theorem before_iff_micros (ha : a.Normal) (hb : b.Normal) : a.before b = true ↔ a.micros < b.micros := by
  unfold TimeVal.Normal at ha hb
  simp only [TimeVal.before, TimeVal.micros, Bool.or_eq_true, Bool.and_eq_true, decide_eq_true_eq]
  omega

theorem addTimeval_normal (ha : a.Normal) (hb : b.Normal) : (addTimeval a b).Normal := by
  unfold TimeVal.Normal addTimeval at *
  split_ifs <;> dsimp only <;> omega

theorem micros_addTimeval (a b : TimeVal) : (addTimeval a b).micros = a.micros + b.micros := by
  unfold TimeVal.micros addTimeval
  split_ifs <;> dsimp only <;> omega

end Times

/-- One evaluation of a rule: the event, and the state in which the loop comes to the rule. -/
structure RuleEval where
  event : FilterEvent
  st : FilterState

def FilterEvent.value (e : FilterEvent) : Field → Bytes := Field.value e.check e.metric

section Trace

variable (env : FilterEnv Re Ast)

def FilterEvent.call (e : FilterEvent) : FilterCall :=
  let name := e.metric.fullName
  let tags := (env.parseTags (name.take e.metric.metricName.length)).getD (name.length, [], [])
  ⟨e.check, e.metric, e.now, tags.1, withNameTag env tags.2.1 (name.take tags.1)⟩

def RuleEval.need (ev : RuleEval) (r : FilterRule Re Ast) (f : Field) : Bool :=
  r.need env (ev.event.call env) ev.st.mtset f

def RuleEval.next (ev : RuleEval) (r : FilterRule Re Ast) : FilterRule Re Ast :=
  (applyRule env (ev.event.call env) r ev.st).1

def RuleEval.flushes (ev : RuleEval) (r : FilterRule Re Ast) : Bool :=
  decide (∃ f, ev.need env r f = true) && r.flushInterval ≠ .zero &&
    !ev.event.now.before (addTimeval r.lastFlush r.flushInterval)

def RuleEval.adds (f : Field) (ev : RuleEval) (r : FilterRule Re Ast) : Bool :=
  ev.need env r f && ((ev.next env r).matcher f).ht.any fun t => decide (ev.event.value f ∈ t)

def ruleAfter (r : FilterRule Re Ast) (evs : List RuleEval) : FilterRule Re Ast :=
  evs.foldl (fun r ev => ev.next env r) r

def Unflushed : FilterRule Re Ast → List RuleEval → Prop
  | _, [] => True
  | r, ev :: evs => ev.flushes env r = false ∧ Unflushed (ev.next env r) evs

def addCount (f : Field) : FilterRule Re Ast → List RuleEval → Nat
  | _, [] => 0
  | r, ev :: evs => (ev.adds env f r).toNat + addCount f (ev.next env r) evs

structure Sequential (evs : List RuleEval) : Prop where
  normal : ∀ ev ∈ evs, ev.event.now.Normal
  noNul : ∀ ev ∈ evs, 0 ∉ ev.event.metric.metricName
  ordered : evs.Pairwise fun a b => a.event.now.micros ≤ b.event.now.micros

/-- What is expected of a rule that adds up to `limit` values of field `f` and is flushed every `period`
milliseconds, over every trace. -/
structure BoundedAutoAdd (f : Field) (limit : Int) (period : Int) (keys : Field → Finset Bytes)
    (r : FilterRule Re Ast) : Prop where
  bounded : ∀ pre ev evs, Sequential (pre ++ ev :: evs) →
    Unflushed env (ev.next env (ruleAfter env r pre)) evs →
    (addCount env f (ruleAfter env r pre) (ev :: evs) : Int) ≤ limit
  keeps : ∀ pre ev evs ev', Sequential (pre ++ ev :: (evs ++ [ev'])) →
    ev.adds env f (ruleAfter env r pre) = true →
    Unflushed env (ev.next env (ruleAfter env r pre)) evs → ev'.event.value f = ev.event.value f →
    ev'.need env (ruleAfter env r (pre ++ ev :: evs)) f = false
  apart : ∀ pre ev evs ev', Sequential (pre ++ ev :: (evs ++ [ev'])) →
    ev.flushes env (ruleAfter env r pre) = true →
    ev'.flushes env (ruleAfter env r (pre ++ ev :: evs)) = true →
    (ev.event.now.micros : Int) + period * 1000 ≤ ev'.event.now.micros
  explicit : ∀ pre ev, Sequential (pre ++ [ev]) → ∀ g, ev.event.value g ∈ keys g →
    ev.need env (ruleAfter env r pre) g = false

end Trace

theorem applyFilterset_call (env : FilterEnv Re Ast) (rules : List (FilterRule Re Ast)) (e : FilterEvent) :
    (applyFilterset env rules e).1 = (applyRules env (e.call env) 0 rules
      ⟨none, ((env.parseTags (e.metric.fullName.take e.metric.metricName.length)).getD
        (e.metric.fullName.length, [], [])).2.2, none, false⟩).1 := by
  unfold applyFilterset FilterEvent.call
  dsimp only
  split
  · rename_i h
    rw [h]
  · rename_i h
    rw [h]

section Step

variable {env : FilterEnv Re Ast} {r : FilterRule Re Ast} {ev : RuleEval} {f : Field} {t : Finset Bytes}

def RuleEval.base (env : FilterEnv Re Ast) (ev : RuleEval) (r : FilterRule Re Ast) (f : Field) :
    Option (Finset Bytes) :=
  if ev.flushes env r = true ∧ (r.matcher f).autoHashMax ≠ 0 then (r.matcher f).ht.map fun _ => ∅
  else (r.matcher f).ht

theorem flushes_of_miss (h : ∃ f, ev.need env r f = true) :
    ev.flushes env r = true ↔ r.flushInterval ≠ .zero ∧
      ev.event.now.before (addTimeval r.lastFlush r.flushInterval) = false := by
  simp [RuleEval.flushes, h]

theorem flushes_of_match (h : ∀ f, ev.need env r f = false) : ev.flushes env r = false := by
  simp [RuleEval.flushes, h]

theorem base_of_unflushed (h : ev.flushes env r = false) (f : Field) :
    ev.base env r f = (r.matcher f).ht := by
  simp [RuleEval.base, h]

theorem base_of_unlimited (h : (r.matcher f).autoHashMax = 0) : ev.base env r f = (r.matcher f).ht := by
  simp [RuleEval.base, h]

theorem flush_spec (h : ∃ f, ev.need env r f = true) :
    r.flush ev.event.now = { r with
      matcher := fun f => { r.matcher f with ht := ev.base env r f }
      lastFlush := if ev.flushes env r then ev.event.now else r.lastFlush } := by
  by_cases hflush : ev.flushes env r = true
  · obtain ⟨hinterval, hbefore⟩ := (flushes_of_miss h).mp hflush
    have hmatcher : (fun f => (r.matcher f).flushed) = fun f =>
      { r.matcher f with ht := ev.base env r f } := by
      funext f
      by_cases hlimit : (r.matcher f).autoHashMax = 0
      · rw [flushed_of_zero hlimit, base_of_unlimited hlimit]
      · rw [Matcher.flushed, if_neg hlimit, RuleEval.base, if_pos ⟨hflush, hlimit⟩]
    rw [FilterRule.flush, if_neg hinterval, if_neg (by simp [hbefore]), hmatcher, if_pos hflush]
  · rw [Bool.not_eq_true] at hflush
    have hsame : r.flush ev.event.now = r := by
      unfold FilterRule.flush
      split_ifs with hzero hbefore
      · rfl
      · rfl
      · rw [(flushes_of_miss h).mpr ⟨hzero, Bool.eq_false_iff.mpr hbefore⟩] at hflush
        cases hflush
    rw [hsame, hflush]
    simp only [base_of_unflushed hflush, Bool.false_eq_true, if_false]

theorem next_spec (env : FilterEnv Re Ast) (ev : RuleEval) (r : FilterRule Re Ast) :
    (ev.next env r).flushInterval = r.flushInterval ∧
    (ev.next env r).lastFlush = (if ev.flushes env r then ev.event.now else r.lastFlush) ∧
    ∀ f, (ev.next env r).matcher f = { r.matcher f with ht := ev.base env r f } ∨
      (ev.need env r f = true ∧ 0 < (r.matcher f).autoHashMax ∧
        (ev.base env r f).any (fun t => (t.card : Int) < (r.matcher f).autoHashMax) = true ∧
        (ev.next env r).matcher f =
          { r.matcher f with ht := (ev.base env r f).map (insert (ev.event.value f)) }) := by
  have hnow : (ev.event.call env).now = ev.event.now := rfl
  have hvalue : (ev.event.call env).value = ev.event.value := by
    funext f
    cases f <;> rfl
  unfold RuleEval.next applyRule
  dsimp only
  by_cases hneed : ∀ f, ev.need env r f = false
  · have hneed' : ∀ f, r.need env (ev.event.call env) ev.st.mtset f = false := hneed
    have hno := flushes_of_match hneed
    rw [if_pos hneed']
    refine ⟨rfl, by simp [hno], fun f => Or.inl ?_⟩
    rw [base_of_unflushed hno]
  · have hneed' : ¬ ∀ f, r.need env (ev.event.call env) ev.st.mtset f = false := hneed
    have hmiss : ∃ f, ev.need env r f = true := by
      simpa using hneed
    have hflush := flush_spec hmiss
    rw [if_neg hneed', hnow]
    generalize r.flush ev.event.now = flushed at hflush ⊢
    have hinterval : flushed.flushInterval = r.flushInterval := by rw [hflush]
    have hlast : flushed.lastFlush = if ev.flushes env r then ev.event.now else r.lastFlush := by rw [hflush]
    have hmatcher : ∀ f, flushed.matcher f = { r.matcher f with ht := ev.base env r f } := by
      intro f
      rw [hflush]
    by_cases hadd : ∀ f, (flushed.matcher f).checkAdd (r.need env (ev.event.call env) ev.st.mtset f) = true
    · rw [if_pos hadd]
      cases flushed.taken env (ev.event.call env).metric ev.st with
      | next st => exact ⟨hinterval, hlast, fun f => Or.inl (hmatcher f)⟩
      | stop ret =>
        refine ⟨hinterval, hlast, fun f => ?_⟩
        have haddf := hadd f
        have hneedf : r.need env (ev.event.call env) ev.st.mtset f = ev.need env r f := rfl
        dsimp only
        rw [hneedf, hmatcher] at haddf ⊢
        rw [hvalue]
        cases hneeds : ev.need env r f with
        | false => exact Or.inl rfl
        | true =>
          simp only [Matcher.checkAdd, hneeds, Bool.not_true, Bool.false_or, Bool.and_eq_true,
            decide_eq_true_eq] at haddf
          exact Or.inr ⟨rfl, haddf.1, haddf.2, rfl⟩
    · rw [if_neg hadd]
      exact ⟨hinterval, hlast, fun f => Or.inl (hmatcher f)⟩

theorem need_field (hf : f ≠ .metric) (hht : (r.matcher f).ht = some t) :
    ev.need env r f = !decide (ev.event.value f ∈ t) := by
  cases f with
  | target => simp [RuleEval.need, FilterRule.need, Matcher.applyFilterrule, hht]; rfl
  | module => simp [RuleEval.need, FilterRule.need, Matcher.applyFilterrule, hht]; rfl
  | name => simp [RuleEval.need, FilterRule.need, Matcher.applyFilterrule, hht]; rfl
  | metric => exact absurd rfl hf

theorem need_metric (hht : (r.matcher .metric).ht = some t) :
    ev.need env r .metric = !(decide (ev.event.metric.metricName.take (ev.event.call env).mlen ∈ t) ||
      decide (lookedUp ev.event.metric.metricName (ev.event.call env).mlen ∈ t)) := by
  simp only [RuleEval.need, FilterRule.need, FilterRule.applyFilterruleMetric, hht]
  rfl

theorem need_of_mem (hht : (r.matcher f).ht = some t) (hnul : 0 ∉ ev.event.metric.metricName)
    (hmem : ev.event.value f ∈ t) : ev.need env r f = false := by
  by_cases hf : f = .metric
  · subst hf
    rw [need_metric hht, lookedUp]
    generalize (ev.event.call env).mlen = mlen
    have hmem' : ev.event.metric.metricName ∈ t := hmem
    -- The whole name is looked up unless it ends with the bare name.
    rcases Nat.lt_or_ge mlen ev.event.metric.metricName.length with hlt | hge
    · have hne : ev.event.metric.metricName.getD mlen 0 ≠ 0 := by
        rw [List.getD_eq_getElem _ _ hlt]
        exact fun h => hnul (h ▸ List.getElem_mem hlt)
      rw [if_neg hne]
      simp [hmem']
    · simp [List.take_of_length_le hge, hmem']
  · rw [need_field hf hht]
    simp [hmem]

theorem not_mem_of_need (hht : (r.matcher f).ht = some t) (hnul : 0 ∉ ev.event.metric.metricName)
    (hneed : ev.need env r f = true) : ev.event.value f ∉ t := by
  intro hmem
  rw [need_of_mem hht hnul hmem] at hneed
  cases hneed

end Step

/-! Runs of a rule with a limit on one field. -/

structure Limited (f : Field) (limit : Int) (r : FilterRule Re Ast) : Prop where
  limit_eq : (r.matcher f).autoHashMax = limit
  table : (r.matcher f).ht.isSome = true
  others : ∀ g, g ≠ f → (r.matcher g).autoHashMax = 0

section Runs

variable {env : FilterEnv Re Ast} {f : Field} {limit : Int} {r : FilterRule Re Ast} {ev : RuleEval}
  {evs : List RuleEval} {t : Finset Bytes}

theorem Limited.next (h : Limited f limit r) (ev : RuleEval) : Limited f limit (ev.next env r) := by
  obtain ⟨-, -, hspec⟩ := next_spec env ev r
  have hmax : ∀ g, ((ev.next env r).matcher g).autoHashMax = (r.matcher g).autoHashMax := by
    intro g
    rcases hspec g with hg | ⟨-, -, -, hg⟩ <;> rw [hg]
  have hbase : (ev.base env r f).isSome = true := by
    rw [RuleEval.base]
    split_ifs
    · rw [Option.isSome_map]
      exact h.table
    · exact h.table
  refine ⟨(hmax f).trans h.limit_eq, ?_, fun g hg => (hmax g).trans (h.others g hg)⟩
  rcases hspec f with hf | ⟨-, -, -, hf⟩
  · rw [hf]
    exact hbase
  · rw [hf, Option.isSome_map]
    exact hbase

theorem Limited.after (h : Limited f limit r) (evs : List RuleEval) :
    Limited f limit (ruleAfter env r evs) := by
  induction evs generalizing r with
  | nil => exact h
  | cons ev evs ih => exact ih (h.next ev)

theorem matcher_next_of_unlimited (h : (r.matcher f).autoHashMax = 0) (ev : RuleEval) :
    (ev.next env r).matcher f = r.matcher f := by
  rcases (next_spec env ev r).2.2 f with hnext | ⟨-, hpos, -⟩
  · rw [hnext, base_of_unlimited h]
  · rw [h] at hpos
    exact absurd hpos (lt_irrefl _)

theorem matcher_after_of_unlimited (h : (r.matcher f).autoHashMax = 0) (evs : List RuleEval) :
    (ruleAfter env r evs).matcher f = r.matcher f := by
  induction evs generalizing r with
  | nil => rfl
  | cons ev evs ih =>
    have hnext : (ev.next env r).matcher f = r.matcher f := matcher_next_of_unlimited h ev
    have hafter : (ruleAfter env (ev.next env r) evs).matcher f = (ev.next env r).matcher f :=
      ih (by rw [hnext, h])
    exact hafter.trans hnext

theorem Limited.step (h : Limited f limit r) (hlimit : 0 < limit)
    (hht : (r.matcher f).ht = some t) (ev : RuleEval) :
    ((ev.next env r).matcher f).ht = some (if ev.flushes env r then ∅ else t) ∨
      (ev.need env r f = true ∧ (((if ev.flushes env r then ∅ else t : Finset Bytes).card : Nat) : Int) <
        limit ∧
        ((ev.next env r).matcher f).ht =
          some (insert (ev.event.value f) (if ev.flushes env r then ∅ else t))) := by
  have hbase : ev.base env r f = some (if ev.flushes env r then ∅ else t) := by
    have hne : (r.matcher f).autoHashMax ≠ 0 := by
      rw [h.limit_eq]
      omega
    rw [RuleEval.base, hht]
    by_cases hflush : ev.flushes env r = true
    · rw [if_pos ⟨hflush, hne⟩, if_pos hflush, Option.map_some]
    · rw [if_neg fun hb => hflush hb.1, if_neg hflush]
  rcases (next_spec env ev r).2.2 f with hnext | ⟨hneed, -, hcard, hnext⟩
  · exact Or.inl (by rw [hnext, hbase])
  · rw [hbase, Option.any_some, decide_eq_true_eq, h.limit_eq] at hcard
    exact Or.inr ⟨hneed, hcard, by rw [hnext, hbase, Option.map_some]⟩

theorem Limited.of_adds (h : Limited f limit r) (hlimit : 0 < limit) (hht : (r.matcher f).ht = some t)
    (hnul : 0 ∉ ev.event.metric.metricName) (hadds : ev.adds env f r = true) :
    ev.event.value f ∉ (if ev.flushes env r then ∅ else t : Finset Bytes) ∧
      (((if ev.flushes env r then ∅ else t : Finset Bytes).card : Nat) : Int) < limit ∧
      ((ev.next env r).matcher f).ht =
        some (insert (ev.event.value f) (if ev.flushes env r then ∅ else t)) := by
  rw [RuleEval.adds, Bool.and_eq_true] at hadds
  have hmissed : ev.event.value f ∉ (if ev.flushes env r then ∅ else t : Finset Bytes) := by
    have hnot := not_mem_of_need hht hnul hadds.1
    split_ifs
    · simp
    · exact hnot
  rcases h.step hlimit hht ev with hnext | ⟨-, hcard, hnext⟩
  · rw [hnext, Option.any_some, decide_eq_true_eq] at hadds
    exact absurd hadds.2 hmissed
  · exact ⟨hmissed, hcard, hnext⟩

theorem Limited.subset_next (h : Limited f limit r) (hlimit : 0 < limit) (hht : (r.matcher f).ht = some t)
    (hflush : ev.flushes env r = false) : ∃ t', ((ev.next env r).matcher f).ht = some t' ∧ t ⊆ t' := by
  rcases h.step hlimit hht ev with hnext | ⟨-, -, hnext⟩
  · rw [hflush] at hnext
    exact ⟨t, hnext, Finset.Subset.refl t⟩
  · rw [hflush] at hnext
    exact ⟨_, hnext, Finset.subset_insert _ t⟩

theorem Limited.subset_after (h : Limited f limit r) (hlimit : 0 < limit) (hht : (r.matcher f).ht = some t)
    (hquiet : Unflushed env r evs) : ∃ t', ((ruleAfter env r evs).matcher f).ht = some t' ∧ t ⊆ t' := by
  induction evs generalizing r t with
  | nil => exact ⟨t, hht, Finset.Subset.refl t⟩
  | cons ev evs ih =>
    obtain ⟨t₁, ht₁, hsub⟩ := h.subset_next hlimit hht hquiet.1
    obtain ⟨t₂, ht₂, hsub'⟩ := ih (h.next ev) ht₁ hquiet.2
    exact ⟨t₂, ht₂, hsub.trans hsub'⟩

theorem Limited.toNat_adds (h : Limited f limit r) (hlimit : 0 < limit) (hht : (r.matcher f).ht = some t)
    (hnul : 0 ∉ ev.event.metric.metricName) : ∃ t', ((ev.next env r).matcher f).ht = some t' ∧
      (ev.adds env f r).toNat + (if ev.flushes env r then ∅ else t : Finset Bytes).card ≤ t'.card ∧
      (((ev.adds env f r).toNat : Int) ≤
        max 0 (limit - (if ev.flushes env r then ∅ else t : Finset Bytes).card)) := by
  cases hadds : ev.adds env f r with
  | true =>
    obtain ⟨hnot, hcard, hnext⟩ := h.of_adds hlimit hht hnul hadds
    refine ⟨_, hnext, ?_, ?_⟩
    · rw [Finset.card_insert_of_notMem hnot]
      simp only [Bool.toNat_true]
      omega
    · simp only [Bool.toNat_true]
      omega
  | false =>
    simp only [Bool.toNat_false, Nat.zero_add]
    rcases h.step hlimit hht ev with hnext | ⟨-, -, hnext⟩
    · exact ⟨_, hnext, le_rfl, by omega⟩
    · exact ⟨_, hnext, Finset.card_le_card (Finset.subset_insert _ _), by omega⟩

theorem Limited.addCount_le (h : Limited f limit r) (hlimit : 0 < limit) (hht : (r.matcher f).ht = some t)
    (hnul : ∀ ev ∈ evs, 0 ∉ ev.event.metric.metricName) (hquiet : Unflushed env r evs) :
    (addCount env f r evs : Int) ≤ max 0 (limit - t.card) := by
  induction evs generalizing r t with
  | nil => simp [addCount]
  | cons ev evs ih =>
    rw [List.forall_mem_cons] at hnul
    obtain ⟨t', ht', hgrow, hroom⟩ := h.toNat_adds hlimit hht hnul.1
    rw [hquiet.1] at hgrow hroom
    simp only [Bool.false_eq_true, if_false] at hgrow hroom
    have hrest := ih (h.next ev) ht' hnul.2 hquiet.2
    rw [addCount]
    push_cast
    omega

theorem lastFlush_next (env : FilterEnv Re Ast) (ev : RuleEval) (r : FilterRule Re Ast) :
    (ev.next env r).lastFlush = if ev.flushes env r then ev.event.now else r.lastFlush :=
  (next_spec env ev r).2.1

theorem flushInterval_after (env : FilterEnv Re Ast) (r : FilterRule Re Ast) (evs : List RuleEval) :
    (ruleAfter env r evs).flushInterval = r.flushInterval := by
  induction evs generalizing r with
  | nil => rfl
  | cons ev evs ih => exact (ih (ev.next env r)).trans (next_spec env ev r).1

theorem lastFlush_after {P : TimeVal → Prop} (hr : P r.lastFlush) (hevs : ∀ ev ∈ evs, P ev.event.now) :
    P (ruleAfter env r evs).lastFlush := by
  induction evs generalizing r with
  | nil => exact hr
  | cons ev evs ih =>
    rw [List.forall_mem_cons] at hevs
    refine ih ?_ hevs.2
    rw [lastFlush_next]
    split_ifs
    · exact hevs.1
    · exact hr

theorem ruleAfter_append (env : FilterEnv Re Ast) (r : FilterRule Re Ast) (evs evs' : List RuleEval) :
    ruleAfter env r (evs ++ evs') = ruleAfter env (ruleAfter env r evs) evs' :=
  List.foldl_append

theorem ruleAfter_cons (env : FilterEnv Re Ast) (r : FilterRule Re Ast) (ev : RuleEval)
    (evs : List RuleEval) :
    ruleAfter env r (ev :: evs) = ruleAfter env (ev.next env r) evs := rfl

theorem flushes_apart (hflush : ev.flushes env r = true) {last : Nat} (hnow : ev.event.now.Normal)
    (hnormal : r.lastFlush.Normal) (hinterval : r.flushInterval.Normal) (hlast : last ≤ r.lastFlush.micros) :
    last + r.flushInterval.micros ≤ ev.event.now.micros := by
  simp only [RuleEval.flushes, Bool.and_eq_true, Bool.not_eq_true'] at hflush
  have hbefore := hflush.2
  rw [Bool.eq_false_iff, ne_eq, before_iff_micros hnow (addTimeval_normal hnormal hinterval),
    micros_addTimeval] at hbefore
  omega

end Runs

section Bounded

variable {env : FilterEnv Re Ast} {f : Field} {limit period : Int} {keys : Field → Finset Bytes}
  {r : FilterRule Re Ast} {ev : RuleEval} {evs : List RuleEval}

theorem normal_flushInterval (period : Int) : (flushInterval period).Normal := by
  unfold TimeVal.Normal flushInterval
  dsimp only
  omega

theorem micros_flushInterval (hperiod : 0 ≤ period) :
    ((flushInterval period).micros : Int) = period / 1000 * 1000000 + period % 1000 := by
  unfold TimeVal.micros flushInterval
  dsimp only
  omega

theorem flushInterval_eq_zero (hperiod : 0 ≤ period) : flushInterval period = .zero ↔ period = 0 := by
  unfold flushInterval TimeVal.zero
  rw [TimeVal.mk.injEq]
  omega

theorem unflushed_of_zero (h : r.flushInterval = .zero) (evs : List RuleEval) : Unflushed env r evs := by
  induction evs generalizing r with
  | nil => trivial
  | cons ev evs ih =>
    refine ⟨by simp [RuleEval.flushes, h], ih ?_⟩
    rw [(next_spec env ev r).1, h]

theorem Limited.others_after (h : Limited f limit r) {g : Field} (hg : g ≠ f) (evs : List RuleEval) :
    ((ruleAfter env r evs).matcher g).ht = (r.matcher g).ht := by
  rw [matcher_after_of_unlimited (h.others g hg)]

theorem Limited.exists_table (h : Limited f limit r) : ∃ t, (r.matcher f).ht = some t :=
  Option.isSome_iff_exists.mp h.table

theorem Limited.bounded (h : Limited f limit r) (hlimit : 0 < limit)
    (hnul : ∀ ev' ∈ ev :: evs, 0 ∉ ev'.event.metric.metricName) (hquiet : Unflushed env (ev.next env r) evs) :
    (addCount env f r (ev :: evs) : Int) ≤ limit := by
  rw [List.forall_mem_cons] at hnul
  obtain ⟨t, ht⟩ := h.exists_table
  obtain ⟨t', ht', hgrow, hroom⟩ := h.toNat_adds hlimit ht hnul.1
  have hrest := (h.next ev).addCount_le hlimit ht' hnul.2 hquiet
  rw [addCount]
  push_cast
  omega

theorem Limited.keeps {ev' : RuleEval} (h : Limited f limit r) (hlimit : 0 < limit)
    (hnul : 0 ∉ ev.event.metric.metricName) (hnul' : 0 ∉ ev'.event.metric.metricName)
    (hadds : ev.adds env f r = true) (hquiet : Unflushed env (ev.next env r) evs)
    (hvalue : ev'.event.value f = ev.event.value f) :
    ev'.need env (ruleAfter env (ev.next env r) evs) f = false := by
  obtain ⟨t, ht⟩ := h.exists_table
  obtain ⟨-, -, hnext⟩ := h.of_adds hlimit ht hnul hadds
  obtain ⟨t', ht', hsub⟩ := (h.next ev).subset_after hlimit hnext hquiet
  refine need_of_mem ht' hnul' ?_
  rw [hvalue]
  exact hsub (Finset.mem_insert_self _ _)

theorem boundedAutoAdd_of (h : Limited f limit r) (hlimit : 0 < limit) (hperiod : 0 ≤ period)
    (hinterval : r.flushInterval = flushInterval period)
    (hkeys : ∀ g, (keys g).Nonempty → (r.matcher g).ht = some (keys g))
    (hseconds : period % 1000 = 0) (hexplicit : keys f = ∅ ∨ period = 0) :
    BoundedAutoAdd env f limit period keys r := by
  refine ⟨?_, ?_, ?_, ?_⟩
  · intro pre ev evs hseq hquiet
    exact (h.after pre).bounded hlimit (fun ev' hev' => hseq.noNul ev' (List.mem_append_right _ hev')) hquiet
  · intro pre ev evs ev' hseq hadds hquiet hvalue
    rw [ruleAfter_append, ruleAfter_cons]
    exact (h.after pre).keeps hlimit (hseq.noNul ev (by simp)) (hseq.noNul ev' (by simp)) hadds hquiet hvalue
  · intro pre ev evs ev' hseq hflush hflush'
    rw [ruleAfter_append, ruleAfter_cons] at hflush'
    have hordered := (List.pairwise_append.mp hseq.ordered).2.1
    have hlater := (List.pairwise_cons.mp hordered).1
    have hmid : ((ruleAfter env (ev.next env (ruleAfter env r pre)) evs).lastFlush).Normal ∧
        ev.event.now.micros ≤ (ruleAfter env (ev.next env (ruleAfter env r pre)) evs).lastFlush.micros := by
      refine lastFlush_after (P := fun t => t.Normal ∧ ev.event.now.micros ≤ t.micros) ?_ ?_
      · rw [lastFlush_next, if_pos hflush]
        exact ⟨hseq.normal ev (by simp), le_rfl⟩
      · intro ev'' hev''
        exact ⟨hseq.normal ev'' (by simp [hev'']), hlater ev'' (by simp [hev''])⟩
    have hsame : (ruleAfter env (ev.next env (ruleAfter env r pre)) evs).flushInterval =
      flushInterval period := by
      rw [← ruleAfter_cons, ← ruleAfter_append, flushInterval_after, hinterval]
    have hapart := flushes_apart hflush' (hseq.normal ev' (by simp)) hmid.1
      (by rw [hsame]; exact normal_flushInterval period) hmid.2
    have hmicros := micros_flushInterval hperiod
    rw [hsame] at hapart
    omega
  · intro pre ev hseq g hg
    have hnul := hseq.noNul ev (by simp)
    have htable := hkeys g ⟨_, hg⟩
    by_cases hgf : g = f
    · subst hgf
      rcases hexplicit with hempty | hzero
      · rw [hempty] at hg
        exact absurd hg (Finset.notMem_empty _)
      · have hquiet : Unflushed env r pre :=
          unflushed_of_zero (hinterval.trans ((flushInterval_eq_zero hperiod).mpr hzero)) pre
        obtain ⟨t', ht', hsub⟩ := h.subset_after hlimit htable hquiet
        exact need_of_mem ht' hnul (hsub hg)
    · exact need_of_mem ((h.others_after hgf pre).trans htable) hnul hg

end Bounded

/-! Traces on which a rule does not keep its bounds. -/

def letterName {n : Nat} (bits : Fin n → Bool) : Bytes := List.ofFn fun i => if bits i then 97 else 98

theorem length_letterName {n : Nat} (bits : Fin n → Bool) : (letterName bits).length = n := List.length_ofFn

theorem letterName_injective (n : Nat) : Function.Injective (letterName (n := n)) := by
  intro x y h
  have hfun := List.ofFn_injective h
  funext i
  have hi := congrFun hfun i
  cases hx : x i <;> cases hy : y i <;> simp [hx, hy] at hi ⊢

theorem exists_fresh {n : Nat} (S : Finset Bytes) (h : 2 * S.card < 2 ^ n) :
    ∃ v : Bytes, (∀ c ∈ v, c = 97 ∨ c = 98) ∧ v.length = n ∧ v ∉ S ∧ v ++ emptyStreamTags ∉ S := by
  let names : Finset Bytes := Finset.univ.map ⟨letterName, letterName_injective n⟩
  have hcard : names.card = 2 ^ n := by
    simp [names]
  have hfew : (S ∪ S.image (List.take n)).card < names.card := by
    have hunion := Finset.card_union_le S (S.image (List.take n))
    have himage := Finset.card_image_le (s := S) (f := List.take n)
    omega
  obtain ⟨v, hv, hnot⟩ := Finset.exists_mem_notMem_of_card_lt_card hfew
  obtain ⟨bits, -, rfl⟩ := Finset.mem_map.mp hv
  rw [Finset.mem_union, not_or] at hnot
  have hlen : (letterName bits).length = n := length_letterName bits
  refine ⟨letterName bits, ?_, hlen, hnot.1, fun hmem => hnot.2 ?_⟩
  · intro c hc
    obtain ⟨i, rfl⟩ := List.mem_ofFn.mp hc
    cases bits i <;> simp
  · exact Finset.mem_image.mpr ⟨_, hmem, List.take_left' hlen⟩

def presenting (f : Field) (v : Bytes) (now : TimeVal) : RuleEval where
  event := ⟨⟨if f = .target then v else [], if f = .module then v else [], if f = .name then v else []⟩,
    ⟨if f = .metric then v else [109], none⟩, now⟩
  st := ⟨none, [], none, false⟩

section Missing

variable {l : FilterLibs Re} {f : Field} {r : FilterRule Re (SearchAst TagMatch)}
    {t : Finset Bytes} {v : Bytes}
  {now : TimeVal}

theorem presenting_value (f : Field) (v : Bytes) (now : TimeVal) :
    (presenting f v now).event.value f = v := by
  cases f <;> rfl

theorem presenting_noNul (hv : 0 ∉ v) : 0 ∉ (presenting f v now).event.metric.metricName := by
  unfold presenting
  dsimp only
  split_ifs
  · exact hv
  · decide

theorem presenting_missed (hht : (r.matcher f).ht = some t) (hletters : ∀ c ∈ v, c = 97 ∨ c = 98)
    (hlen : v.length = 40)
    (hv : v ∉ t) (hst : v ++ emptyStreamTags ∉ t) : (presenting f v now).need l.env r f = true := by
  by_cases hf : f = .metric
  · subst hf
    have hmarker : ¬ HasMarker v := by
      have hbar : 124 ∉ v := fun h => by
        rcases hletters 124 h with h | h <;> cases h
      rintro (h | h)
      · exact hbar (h.subset (by decide))
      · exact hbar (h.subset (by decide))
    have hmlen : ((presenting .metric v now).event.call l.env).mlen = v.length := by
      have hparse := parseTags_name l hmarker
      simp [FilterEvent.call, presenting, FilterMetric.fullName, hparse]
    have hlooked : lookedUp v v.length = v ++ emptyStreamTags := by
      rw [lookedUp, if_pos (by simp), withEmptyTags, List.take_of_length_le]
      simp [hlen, emptyStreamTags, stOpen, stClose, maxMetricTaggedName]
    rw [need_metric hht, hmlen]
    simp only [presenting, if_true, hlooked, List.take_length]
    simp [hv, hst]
  · rw [need_field hf hht, presenting_value]
    simp [hv]

theorem letters_noNul (hletters : ∀ c ∈ v, c = 97 ∨ c = 98) : 0 ∉ v := by
  intro h
  rcases hletters 0 h with h | h <;> cases h

theorem presenting_flushes (hneed : (presenting f v now).need l.env r f = true)
    (hinterval : r.flushInterval ≠ .zero)
    (hnow : now = addTimeval r.lastFlush r.flushInterval) : (presenting f v now).flushes l.env r = true := by
  refine (flushes_of_miss ⟨f, hneed⟩).mpr ⟨hinterval, ?_⟩
  subst hnow
  simp [presenting, TimeVal.before]

theorem Limited.flushed_subset {limit : Int} (h : Limited f limit r) (hlimit : 0 < limit)
    (hht : (r.matcher f).ht = some t) (hflush : (presenting f v now).flushes l.env r = true) :
    ∃ t', (((presenting f v now).next l.env r).matcher f).ht = some t' ∧ t' ⊆ {v} := by
  rcases h.step hlimit hht (presenting f v now) with hnext | ⟨-, -, hnext⟩
  · rw [if_pos hflush] at hnext
    exact ⟨∅, hnext, Finset.empty_subset _⟩
  · rw [if_pos hflush, presenting_value] at hnext
    exact ⟨_, hnext, by simp⟩

end Missing

section Unbounded

variable {l : FilterLibs Re} {f : Field} {limit period : Int} {keys : Field → Finset Bytes}
  {r : FilterRule Re (SearchAst TagMatch)}

theorem addTimeval_zero {t : TimeVal} (ht : t.Normal) : addTimeval .zero t = t := by
  unfold TimeVal.Normal at ht
  simp [addTimeval, TimeVal.zero, Nat.not_le.mpr ht]

theorem first_flush (h : Limited f limit r) (hlimit : 0 < limit) (hperiod : 0 < period)
    (hinterval : r.flushInterval = flushInterval period) (hlast : r.lastFlush = .zero)
    {t S : Finset Bytes} (hht : (r.matcher f).ht = some t) (hsub : t ⊆ S) (hcard : 2 * S.card < 2 ^ 40) :
    ∃ v t', v ∉ S ∧ 0 ∉ v ∧ (presenting f v (flushInterval period)).flushes l.env r = true ∧
      (((presenting f v (flushInterval period)).next l.env r).matcher f).ht = some t' ∧ t' ⊆ {v} := by
  obtain ⟨v, hletters, hlen, hv, hst⟩ := exists_fresh S hcard
  have hneed : (presenting f v (flushInterval period)).need l.env r f = true :=
    presenting_missed hht hletters hlen (fun hm => hv (hsub hm)) (fun hm => hst (hsub hm))
  have hne : r.flushInterval ≠ .zero := by
    rw [hinterval, ne_eq, flushInterval_eq_zero hperiod.le]
    omega
  have hflush := presenting_flushes hneed hne (by
    rw [hlast, hinterval, addTimeval_zero (normal_flushInterval period)])
  obtain ⟨t', ht', hsub'⟩ := h.flushed_subset hlimit hht hflush
  exact ⟨v, t', hv, letters_noNul hletters, hflush, ht', hsub'⟩

theorem sequential_pair {f : Field} {v w : Bytes} {s t : TimeVal} (hv : 0 ∉ v) (hw : 0 ∉ w) (hs : s.Normal)
    (ht : t.Normal) (hle : s.micros ≤ t.micros) : Sequential [presenting f v s, presenting f w t] := by
  refine ⟨?_, ?_, ?_⟩
  · intro ev hev
    rcases List.mem_pair.mp hev with rfl | rfl
    · exact hs
    · exact ht
  · intro ev hev
    rcases List.mem_pair.mp hev with rfl | rfl
    · exact presenting_noNul hv
    · exact presenting_noNul hw
  · exact List.pairwise_pair.mpr hle

theorem seconds_of_bounded (h : Limited f limit r) (hlimit : 0 < limit) (hperiod : 0 ≤ period)
    (hinterval : r.flushInterval = flushInterval period) (hlast : r.lastFlush = .zero)
    {t : Finset Bytes} (hht : (r.matcher f).ht = some t) (hcard : 2 * t.card < 2 ^ 40)
    (hbounded : BoundedAutoAdd l.env f limit period keys r) : period % 1000 = 0 := by
  by_contra hpart
  have hpos : 0 < period := by omega
  obtain ⟨v, t', hv, hnul, hflush, ht', hsub⟩ := first_flush (l := l) h hlimit hpos hinterval hlast hht
    (Finset.Subset.refl t) hcard
  -- The second flush comes one interval after the first.
  obtain ⟨w, hletters, hlen, hw, hst⟩ := exists_fresh (n := 40) t' (by
    have hone := Finset.card_le_card hsub
    rw [Finset.card_singleton] at hone
    omega)
  have hlast' : ((presenting f v (flushInterval period)).next l.env r).lastFlush = flushInterval period := by
    rw [lastFlush_next, if_pos hflush]
    rfl
  have hinterval' : ((presenting f v (flushInterval period)).next l.env r).flushInterval =
    flushInterval period :=
    (next_spec _ _ _).1.trans hinterval
  have hneed : (presenting f w (addTimeval (flushInterval period) (flushInterval period))).need l.env
      ((presenting f v (flushInterval period)).next l.env r) f = true :=
    presenting_missed ht' hletters hlen hw hst
  have hflush' := presenting_flushes hneed (by
    rw [hinterval', ne_eq, flushInterval_eq_zero hperiod]
    omega) (by rw [hlast', hinterval'])
  have hnormal := normal_flushInterval period
  have hmicros := micros_flushInterval hperiod
  have hsum := micros_addTimeval (flushInterval period) (flushInterval period)
  have hapart := hbounded.apart [] _ [] _
    (sequential_pair hnul (letters_noNul hletters) hnormal (addTimeval_normal hnormal hnormal)
      (by omega)) hflush hflush'
  simp only [presenting] at hapart
  omega

theorem unlisted_of_bounded (h : Limited f limit r) (hlimit : 0 < limit) (hperiod : 0 ≤ period)
    (hinterval : r.flushInterval = flushInterval period) (hlast : r.lastFlush = .zero)
    (hht : (r.matcher f).ht = some (keys f)) (hcard : 2 * (keys f).card + 4 < 2 ^ 40)
    (hnul : ∀ k ∈ keys f, 0 ∉ k)
    (hbounded : BoundedAutoAdd l.env f limit period keys r) : keys f = ∅ ∨ period = 0 := by
  by_contra hcond
  rw [not_or] at hcond
  obtain ⟨k, hk⟩ := Finset.nonempty_iff_ne_empty.mpr hcond.1
  let again := presenting f k (flushInterval period)
  -- The fresh value is none of those that are looked up for the listed one.
  let looked : Finset Bytes :=
    {k.take (again.event.call l.env).mlen, lookedUp k (again.event.call l.env).mlen}
  have hlooked : looked.card ≤ 2 := Finset.card_le_two
  have hunion := Finset.card_union_le (keys f) looked
  obtain ⟨v, t', hv, hnulv, hflush, ht', hsub⟩ := first_flush (l := l) h hlimit (by omega) hinterval hlast hht
    Finset.subset_union_left (show 2 * (keys f ∪ looked).card < 2 ^ 40 by omega)
  rw [Finset.mem_union, not_or] at hv
  have hnot : ∀ x ∈ t', x = v := fun x hx => Finset.mem_singleton.mp (hsub hx)
  have hneed : again.need l.env ((presenting f v (flushInterval period)).next l.env r) f = true := by
    by_cases hf : f = .metric
    · subst hf
      have htake : k.take (again.event.call l.env).mlen ∉ t' := fun hm =>
        hv.2 (by rw [← hnot _ hm]; exact Finset.mem_insert_self _ _)
      have hwhole : lookedUp k (again.event.call l.env).mlen ∉ t' := fun hm =>
        hv.2 (by rw [← hnot _ hm]; exact Finset.mem_insert_of_mem (Finset.mem_singleton_self _))
      rw [need_metric ht']
      have hname : again.event.metric.metricName = k := rfl
      simp [hname, htake, hwhole]
    · rw [need_field hf ht', presenting_value]
      have hmem : k ∉ t' := fun hm => hv.1 (by rw [← hnot _ hm]; exact hk)
      simp [hmem]
  have hnormal := normal_flushInterval period
  have hfound := hbounded.explicit [presenting f v (flushInterval period)] again
    (sequential_pair hnulv (hnul k hk) hnormal hnormal le_rfl) f (by rw [presenting_value]; exact hk)
  rw [ruleAfter_cons] at hfound
  rw [show ruleAfter l.env ((presenting f v (flushInterval period)).next l.env r) [] =
    (presenting f v (flushInterval period)).next l.env r from rfl, hneed] at hfound
  cases hfound

end Unbounded

/-! Rules compiled from their XML. -/

section Compiled

variable {env : FilterEnv Re Ast}

theorem tagsCompile_ht (r : FilterRule Re Ast) (kind : TagSearchKind) (expr : Bytes) (f : Field) :
    ((r.tagsCompile env kind expr).matcher f).ht = (r.matcher f).ht := by
  unfold FilterRule.tagsCompile
  split_ifs
  · rfl
  · cases env.searchParse expr with
    | some search => cases kind <;> rfl
    | none =>
      dsimp only
      split_ifs <;> rfl

theorem compileTags_ht (r : FilterRule Re Ast) (st mt : Option Bytes) (f : Field) :
    ((r.compileTags env st mt).matcher f).ht = (r.matcher f).ht := by
  unfold FilterRule.compileTags
  cases st with
  | none =>
    cases mt with
    | none => rfl
    | some mt => exact tagsCompile_ht r _ mt f
  | some st =>
    cases mt with
    | none => exact tagsCompile_ht r _ st f
    | some mt => exact (tagsCompile_ht _ _ mt f).trans (tagsCompile_ht r _ st f)

theorem compileXmlRule_ht {fs : FiltersetXml} {x : RuleXml} {r : FilterRule Re Ast}
    (h : compileXmlRule env fs x = some r) {f : Field}
    (hf : (x.field f).entries ≠ [] ∨ 0 < (x.field f).autoAdd.getD 0) :
    (r.matcher f).ht = some ((x.field f).entries.map (htKey env f)).toFinset := by
  obtain ⟨head, -, rfl⟩ := Option.map_eq_some_iff.mp h
  rw [compileTags_ht]
  simp only [newRule, htCompile, if_pos hf]

end Compiled

def RuleXml.keys (env : FilterEnv Re Ast) (x : RuleXml) (f : Field) : Finset Bytes :=
  ((x.field f).entries.map (htKey env f)).toFinset

theorem RuleXml.keys_eq_empty {env : FilterEnv Re Ast} {x : RuleXml} {f : Field} :
    x.keys env f = ∅ ↔ (x.field f).entries = [] := by
  rw [RuleXml.keys, List.toFinset_eq_empty_iff, List.map_eq_nil_iff]

/-- A rule with a limit on one field keeps its bounds over every trace if and only if its flush
period is a number of seconds, and no value is listed for the field or the rule is never flushed. -/
theorem auto_add_bounded_iff (l : FilterLibs Re) {fs : FiltersetXml} {x : RuleXml}
    {r : FilterRule Re (SearchAst TagMatch)} (hr : compileXmlRule l.env fs x = some r)
    (skiptoRule : Option Nat)
    {f : Field} {limit : Int} (hlimit : (x.field f).autoAdd = some limit) (hpos : 0 < limit)
    (hothers : ∀ g, g ≠ f → (x.field g).autoAdd = none) (hcount : (x.field f).entries.length < 2 ^ 31)
    (hnul : ∀ k ∈ x.keys l.env f, 0 ∉ k) :
    BoundedAutoAdd l.env f limit (fs.xmlPeriod x) (x.keys l.env) { r with skiptoRule } ↔
      fs.xmlPeriod x % 1000 = 0 ∧ ((x.field f).entries = [] ∨ fs.xmlPeriod x = 0) := by
  obtain ⟨hmax, hinterval, hlast⟩ := compileXmlRule_spec l.env hr
  have hf : (x.field f).entries ≠ [] ∨ 0 < (x.field f).autoAdd.getD 0 := Or.inr (by simp [hlimit, hpos])
  have hht : (r.matcher f).ht = some (x.keys l.env f) := compileXmlRule_ht hr hf
  have hlimited : Limited f limit { r with skiptoRule } := by
    refine ⟨?_, by simp [hht], fun g hg => ?_⟩
    · dsimp only
      rw [hmax f, if_pos hf, hlimit]
      rfl
    · dsimp only
      rw [hmax g, hothers g hg]
      split_ifs <;> rfl
  have hperiod : 0 ≤ fs.xmlPeriod x := by
    unfold FiltersetXml.xmlPeriod
    dsimp only
    split_ifs <;> omega
  have hkeys : ∀ g, (x.keys l.env g).Nonempty → (r.matcher g).ht = some (x.keys l.env g) := by
    intro g hg
    refine compileXmlRule_ht hr (Or.inl fun hnil => ?_)
    rw [RuleXml.keys_eq_empty.mpr hnil] at hg
    exact Finset.not_nonempty_empty hg
  have hcard : (x.keys l.env f).card < 2 ^ 31 := by
    refine lt_of_le_of_lt (List.toFinset_card_le _) ?_
    rwa [List.length_map]
  have hempty : x.keys l.env f = ∅ ↔ (x.field f).entries = [] := RuleXml.keys_eq_empty
  rw [← hempty]
  constructor
  · intro h
    exact ⟨seconds_of_bounded hlimited hpos hperiod hinterval hlast hht (by omega) h,
      unlisted_of_bounded hlimited hpos hperiod hinterval hlast hht (by omega) hnul h⟩
  · rintro ⟨hseconds, hexplicit⟩
    exact boundedAutoAdd_of hlimited hpos hperiod hinterval hkeys hseconds hexplicit

def targetRule (entries : List Bytes) (period : Int) : RuleXml where
  type := some acceptText
  id := none
  filterFlushPeriod := some period
  field f := if f = .target then ⟨entries, some 5, none⟩ else ⟨[], none, none⟩
  streamTags := none
  measurementTags := none

def emptyFilterset : FiltersetXml := ⟨none, none, none, none, none, []⟩

theorem auto_add_bounded_unlisted :
    ∃ r, compileXmlRule plainLibs.env emptyFilterset (targetRule [] 2000) = some r ∧
      BoundedAutoAdd plainLibs.env .target 5 2000 ((targetRule [] 2000).keys plainLibs.env)
        { r with skiptoRule := none } := by
  have hlimit : ((targetRule [] 2000).field .target).autoAdd = some 5 := rfl
  have hothers : ∀ g, g ≠ Field.target → ((targetRule [] 2000).field g).autoAdd = none := by
    intro g hg
    simp [targetRule, hg]
  have hkeys : ∀ k ∈ (targetRule [] 2000).keys plainLibs.env .target, 0 ∉ k := by
    intro k hk
    cases hk
  have hcount : ((targetRule [] 2000).field .target).entries.length < 2 ^ 31 := by decide
  exact ⟨_, rfl, (auto_add_bounded_iff plainLibs rfl none hlimit (by decide) hothers hcount hkeys).mpr
    ⟨rfl, Or.inl rfl⟩⟩

theorem auto_add_unbounded :
    ∃ r, compileXmlRule plainLibs.env emptyFilterset (targetRule [[97]] 1500) = some r ∧
      (presenting .target [97] ⟨10, 0⟩).need plainLibs.env r .target = false ∧
      (presenting .target [98] ⟨10, 0⟩).flushes plainLibs.env r = true ∧
      (presenting .target [97] ⟨10, 0⟩).need plainLibs.env
        ((presenting .target [98] ⟨10, 0⟩).next plainLibs.env r) .target = true ∧
      (presenting .target [99] ⟨11, 500⟩).flushes plainLibs.env
        ((presenting .target [98] ⟨10, 0⟩).next plainLibs.env r) = true := by
  refine ⟨_, rfl, ?_, ?_, ?_, ?_⟩ <;> decide +kernel

end Reconnoiter
