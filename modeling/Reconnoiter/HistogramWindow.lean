import Mathlib

/-! Histograms of one metric, collected second by second and logged when a
sample or a heartbeat of a later window comes in. -/

namespace Reconnoiter

structure HistLine (ν : Type) where
  whence : Nat
  cumulative : Bool
  hist : Multiset ν
deriving DecidableEq

structure Histotier (ν : Type) where
  secs : Nat → Option (Multiset ν)
  lastAggr : Option (Multiset ν)
  lastAggrCumulative : Bool
  cumulative : Bool
  cadence : Nat
  lastSecOff : Nat
  lastPeriod : Nat

inductive HistInput (ν : Type) where
  | value (val : ν) (cnt : Nat)
  | whole (hist : Multiset ν)
  | nothing

/-- Whether the module's duty is to log histograms, and whether the check's filterset lets the metric
through. -/
structure HistConfig where
  histogram : Bool
  filtered : Bool

section

variable {ν : Type}

def histAccumulate (tgt : Multiset ν) (secs : Nat → Option (Multiset ν)) (cadence : Nat) : Multiset ν :=
  (List.range cadence).foldl (fun acc i => acc + (secs i).getD 0) tgt

def lastSec (secs : Nat → Option (Multiset ν)) : Nat → Option Nat
  | 0 => none
  | n + 1 => if (secs n).isSome then some n else lastSec secs n

theorem lastSec_eq_none {secs : Nat → Option (Multiset ν)} {n : Nat} :
    lastSec secs n = none ↔ ∀ i, i < n → secs i = none := by
  induction n with
  | zero => simp [lastSec]
  | succ n ih =>
    unfold lastSec
    cases hn : secs n with
    | some h =>
      simp only [Option.isSome_some, if_true, reduceCtorEq, false_iff]
      exact fun hall => absurd (hall n (Nat.lt_succ_self n)) (by simp [hn])
    | none =>
      simp only [Option.isSome_none, Bool.false_eq_true, if_false, ih]
      constructor
      · intro hall i hi
        rcases Nat.lt_succ_iff_lt_or_eq.mp hi with hi | rfl
        · exact hall i hi
        · exact hn
      · exact fun hall i hi => hall i (Nat.lt_succ_of_lt hi)

theorem lastSec_eq_some {secs : Nat → Option (Multiset ν)} {n i : Nat} (h : lastSec secs n = some i) :
    i < n ∧ (secs i).isSome ∧ ∀ j, i < j → j < n → secs j = none := by
  induction n with
  | zero => exact absurd h (by simp [lastSec])
  | succ n ih =>
    unfold lastSec at h
    split_ifs at h with hn
    · obtain rfl := Option.some.inj h
      exact ⟨Nat.lt_succ_self n, hn, fun j hj hlt => by omega⟩
    · obtain ⟨hi, hsome, hafter⟩ := ih h
      refine ⟨by omega, hsome, fun j hj hlt => ?_⟩
      rcases Nat.lt_succ_iff_lt_or_eq.mp hlt with hlt | rfl
      · exact hafter j hj hlt
      · simpa using hn

theorem histAccumulate_eq (tgt : Multiset ν) (secs : Nat → Option (Multiset ν)) (c : Nat) :
    histAccumulate tgt secs c = tgt + ∑ i ∈ Finset.range c, (secs i).getD 0 := by
  unfold histAccumulate
  induction c with
  | zero => simp
  | succ c ih =>
    rw [List.range_succ, List.foldl_append, ih, Finset.sum_range_succ, ← add_assoc]
    rfl

theorem histAccumulate_target {secs : Nat → Option (Multiset ν)} {c i : Nat} {tgt : Multiset ν} (hi : i < c)
    (h : secs i = some tgt) :
    histAccumulate tgt (Function.update secs i none) c = ∑ j ∈ Finset.range c, (secs j).getD 0 := by
  have hmem : i ∈ Finset.range c := Finset.mem_range.mpr hi
  have hupd : ∀ j, ((Function.update secs i none) j).getD 0 =
      Function.update (fun j => (secs j).getD 0) i 0 j := by
    intro j
    by_cases hj : j = i
    · subst hj
      simp
    · simp [hj]
  rw [histAccumulate_eq, Finset.sum_congr rfl (fun j _ => hupd j), Finset.sum_update_of_mem hmem, zero_add,
    ← Finset.add_sum_erase _ _ hmem, h, Finset.sdiff_singleton_eq_erase]
  rfl

/-- `log_histo`. The line has its second only: the milliseconds tell the place of the node in its cluster. -/
def logHisto (conf : HistConfig) (whence : Nat) (hist : Option (Multiset ν)) (cumulative : Bool) :
    List (HistLine ν) :=
  match hist with
  | none => []
  | some h => if h.card = 0 ∨ whence = 0 ∨ conf.filtered = true then [] else [⟨whence, cumulative, h⟩]

def Histotier.target (ht : Histotier ν) : Option (Multiset ν) :=
  match lastSec ht.secs ht.cadence with
  | none => none
  | some cidx =>
    (ht.secs cidx).map fun tgt =>
      if ht.cumulative then tgt else histAccumulate tgt (Function.update ht.secs cidx none) ht.cadence

def sweepRollNLog (conf : HistConfig) (ht : Histotier ν) : Histotier ν × List (HistLine ν) :=
  let tgt := ht.target
  ({ ht with
      secs := if tgt.isSome then fun _ => none else ht.secs
      lastAggr := tgt
      lastAggrCumulative := ht.cumulative },
    if conf.histogram then logHisto conf (ht.lastPeriod * ht.cadence) tgt ht.cumulative else [])

def allocHistotier (periodS : Nat) : Histotier ν where
  secs := fun _ => none
  lastAggr := none
  lastAggrCumulative := false
  cumulative := false
  cadence := if periodS % 256 < 1 then 1 else if periodS % 256 > 60 then 60 else periodS % 256
  lastSecOff := 0
  lastPeriod := 0

structure HistState (ν : Type) where
  tier : Option (Histotier ν)
  log : List (HistLine ν)

structure HistSample (ν : Type) where
  time : Nat
  cumulative : Bool
  hist : Multiset ν

inductive HistEvent (ν : Type) where
  | sample (x : HistSample ν)
  | heartbeat (s : Nat)

def HistEvent.time : HistEvent ν → Nat
  | .sample x => x.time
  | .heartbeat s => s

def Histotier.hasData (ht : Histotier ν) : Bool :=
  (List.range ht.cadence).any (fun i => (ht.secs i).isSome) || (ht.lastAggr.getD 0).card ≠ 0

def windowSamples (c w : Nat) (es : List (HistEvent ν)) : List (HistSample ν) :=
  es.filterMap fun
    | .sample x => if x.time / c = w then some x else none
    | .heartbeat _ => none

def Completed (c w : Nat) (es : List (HistEvent ν)) : Prop := ∃ e ∈ es, w < e.time / c

structure Histotier.Represents (ht : Histotier ν) (c w : Nat) (xs : List (HistSample ν)) : Prop where
  cadence : ht.cadence = c
  lastPeriod : ht.lastPeriod = w
  outside : ∀ i, c ≤ i → ht.secs i = none
  none_iff : (∀ i, ht.secs i = none) ↔ xs = []
  nonempty : ∀ i h, ht.secs i = some h → h ≠ 0
  plain : (∀ x ∈ xs, x.cumulative = false) → ht.cumulative = false ∧
    ∑ i ∈ Finset.range c, (ht.secs i).getD 0 = (xs.map HistSample.hist).sum
  cumulated : (∀ x ∈ xs, x.cumulative = true) → (2 ≤ xs.length → ht.cumulative = true) ∧
    ∀ x, xs.getLast? = some x → ht.secs (x.time % c) = some x.hist ∧ ∀ j, x.time % c < j → ht.secs j = none

theorem add_ne_zero_of_left {a b : Multiset ν} (h : a ≠ 0) : a + b ≠ 0 := by
  intro hz
  have hcard := congrArg Multiset.card hz
  rw [Multiset.card_add, Multiset.card_zero, Nat.add_eq_zero_iff] at hcard
  exact h (Multiset.card_eq_zero.mp hcard.1)

theorem lastSec_of_represents {ht : Histotier ν} {c w : Nat} {xs : List (HistSample ν)}
    (h : ht.Represents c w xs) : lastSec ht.secs ht.cadence = none ↔ xs = [] := by
  rw [← h.none_iff, lastSec_eq_none, h.cadence]
  refine ⟨fun hall i => ?_, fun hall i _ => hall i⟩
  by_cases hi : i < c
  · exact hall i hi
  · exact h.outside i (by omega)

theorem target_of_represents {ht : Histotier ν} {c w : Nat} {xs : List (HistSample ν)}
    (h : ht.Represents c w xs) (hc : 0 < c) (hxs : xs ≠ []) (flag : Bool) :
    ∃ tgt, ({ ht with cumulative := flag } : Histotier ν).target = some tgt ∧ tgt ≠ 0 ∧
      (flag = false → (∀ x ∈ xs, x.cumulative = false) → tgt = (xs.map HistSample.hist).sum) ∧
      (flag = true → (∀ x ∈ xs, x.cumulative = true) → xs.getLast?.map HistSample.hist = some tgt) := by
  cases hlast : lastSec ht.secs ht.cadence with
  | none => exact absurd ((lastSec_of_represents h).mp hlast) hxs
  | some i =>
    obtain ⟨hi, hsome, hafter⟩ := lastSec_eq_some hlast
    obtain ⟨top, htop⟩ := Option.isSome_iff_exists.mp hsome
    have hnz := h.nonempty i top htop
    cases flag with
    | false =>
      refine ⟨_, by simp only [Histotier.target, hlast, htop, Option.map_some]; rfl, ?_, ?_, by simp⟩
      · rw [histAccumulate_eq]
        exact add_ne_zero_of_left hnz
      · intro _ hall
        rw [histAccumulate_target hi htop, h.cadence]
        exact (h.plain hall).2
    | true =>
      refine ⟨top, by simp only [Histotier.target, hlast, htop, Option.map_some]; rfl, hnz, by simp, ?_⟩
      intro _ hall
      obtain ⟨x, hx⟩ : ∃ x, xs.getLast? = some x := Option.isSome_iff_exists.mp (by simpa using hxs)
      obtain ⟨hat, habove⟩ := (h.cumulated hall).2 x hx
      have hxi : x.time % c = i := by
        rcases Nat.lt_trichotomy (x.time % c) i with hlt | heq | hgt
        · exact absurd (habove i hlt) (by simp [htop])
        · exact heq
        · have hlt : x.time % c < ht.cadence := h.cadence.symm ▸ Nat.mod_lt _ hc
          exact absurd (hafter _ hgt hlt) (by simp [hat])
      rw [hxi, htop] at hat
      rw [hx, Option.map_some]
      exact hat.symm

theorem lines_of_empty (conf : HistConfig) {ht : Histotier ν} {c w : Nat}
    (h : ht.Represents c w []) (flag : Bool) :
    (sweepRollNLog conf { ht with cumulative := flag }).2 = [] := by
  have hnone := (lastSec_of_represents h).mpr rfl
  have htgt : ({ ht with cumulative := flag } : Histotier ν).target = none := by
    simp only [Histotier.target, hnone]
  simp only [sweepRollNLog, htgt, logHisto]
  split_ifs <;> rfl

theorem lines_of_samples {conf : HistConfig} (hconf : conf.histogram = true) (hfilter : conf.filtered = false)
    {ht : Histotier ν} {c w : Nat} {xs : List (HistSample ν)} (h : ht.Represents c w xs) (hc : 0 < c)
    (hw : 0 < w) (hxs : xs ≠ []) (flag : Bool) :
    ∃ tgt, (sweepRollNLog conf { ht with cumulative := flag }).2 = [⟨w * c, flag, tgt⟩] ∧
      (flag = false → (∀ x ∈ xs, x.cumulative = false) → tgt = (xs.map HistSample.hist).sum) ∧
      (flag = true → (∀ x ∈ xs, x.cumulative = true) → xs.getLast?.map HistSample.hist = some tgt) := by
  obtain ⟨tgt, htgt, hne, hplain, hcum⟩ := target_of_represents h hc hxs flag
  have hwc : w * c ≠ 0 := (Nat.mul_pos hw hc).ne'
  refine ⟨tgt, ?_, hplain, hcum⟩
  simp only [sweepRollNLog, htgt, if_pos hconf]
  rw [h.cadence, h.lastPeriod]
  simp [logHisto, hne, hwc, hfilter]

theorem sweepRollNLog_empty {conf : HistConfig} {ht : Histotier ν} {c w : Nat} {xs : List (HistSample ν)}
    (h : ht.Represents c w xs) (hc : 0 < c) (flag : Bool) :
    (sweepRollNLog conf { ht with cumulative := flag }).1.cadence = c ∧
      ∀ i, (sweepRollNLog conf { ht with cumulative := flag }).1.secs i = none := by
  refine ⟨h.cadence, fun i => ?_⟩
  simp only [sweepRollNLog]
  split_ifs with htgt
  · rfl
  · by_cases hxs : xs = []
    · exact h.none_iff.mpr hxs i
    · obtain ⟨tgt, hsome, -⟩ := target_of_represents h hc hxs flag
      exact absurd (by rw [hsome]; rfl) htgt

def LoggedFaithfully (c : Nat) (es : List (HistEvent ν)) (log : List (HistLine ν)) : Prop :=
  ∀ w, Completed c w es → windowSamples c w es ≠ [] →
    ∃ line, log.filter (fun l => l.whence = w * c) = [line] ∧
      ((∀ x, .sample x ∈ es → x.cumulative = false) →
        line.cumulative = false ∧ line.hist = ((windowSamples c w es).map HistSample.hist).sum) ∧
      ((∀ x, .sample x ∈ es → x.cumulative = true) →
        line.cumulative = true ∧ (windowSamples c w es).getLast?.map HistSample.hist = some line.hist)

structure LogTracks (c : Nat) (es : List (HistEvent ν)) (log : List (HistLine ν)) : Prop where
  logged : LoggedFaithfully c es log
  notYet : ∀ w, ¬ Completed c w es → log.filter (fun l => l.whence = w * c) = []

theorem completed_append {c w : Nat} {es : List (HistEvent ν)} {e : HistEvent ν} :
    Completed c w (es ++ [e]) ↔ Completed c w es ∨ w < e.time / c := by
  unfold Completed
  constructor
  · rintro ⟨a, ha, hw⟩
    rcases List.mem_append.mp ha with ha | ha
    · exact .inl ⟨a, ha, hw⟩
    · exact .inr (List.mem_singleton.mp ha ▸ hw)
  · rintro (⟨a, ha, hw⟩ | hw)
    · exact ⟨a, List.mem_append_left _ ha, hw⟩
    · exact ⟨e, List.mem_append_right _ List.mem_cons_self, hw⟩

theorem windowSamples_append_of_ne {c w : Nat} {es : List (HistEvent ν)} {e : HistEvent ν}
    (h : e.time / c ≠ w) : windowSamples c w (es ++ [e]) = windowSamples c w es := by
  rw [windowSamples, List.filterMap_append]
  cases e with
  | sample x =>
    have hx : x.time / c ≠ w := h
    simp [windowSamples, hx]
  | heartbeat s => simp [windowSamples]

theorem windowSamples_append_heartbeat (c w : Nat) (es : List (HistEvent ν)) (s : Nat) :
    windowSamples c w (es ++ [.heartbeat s]) = windowSamples c w es := by
  simp [windowSamples]

theorem windowSamples_append_sample {c w : Nat} (es : List (HistEvent ν)) {x : HistSample ν}
    (h : x.time / c = w) : windowSamples c w (es ++ [.sample x]) = windowSamples c w es ++ [x] := by
  simp [windowSamples, h]

theorem mem_windowSamples {c w : Nat} {es : List (HistEvent ν)} {x : HistSample ν} :
    x ∈ windowSamples c w es ↔ .sample x ∈ es ∧ x.time / c = w := by
  simp only [windowSamples, List.mem_filterMap]
  constructor
  · rintro ⟨a, ha, hx⟩
    cases a with
    | sample y =>
      simp only [Option.ite_none_right_eq_some, Option.some.injEq] at hx
      obtain ⟨hw, rfl⟩ := hx
      exact ⟨ha, hw⟩
    | heartbeat s => exact absurd hx (by simp)
  · rintro ⟨hmem, hw⟩
    exact ⟨.sample x, hmem, by simp [hw]⟩

theorem LogTracks.append {c : Nat} {es : List (HistEvent ν)} {log lines : List (HistLine ν)}
    (h : LogTracks c es log) (hc : 0 < c) {e : HistEvent ν} (hle : ∀ a ∈ es, a.time ≤ e.time)
    (hlines : ∀ l ∈ lines, ∃ w, l.whence = w * c ∧ ¬ Completed c w es ∧ w < e.time / c)
    (hnew : ∀ w, ¬ Completed c w es → w < e.time / c → windowSamples c w es ≠ [] →
      ∃ line, lines = [line] ∧ line.whence = w * c ∧
        ((∀ x, .sample x ∈ es ++ [e] → x.cumulative = false) →
          line.cumulative = false ∧ line.hist = ((windowSamples c w es).map HistSample.hist).sum) ∧
        ((∀ x, .sample x ∈ es ++ [e] → x.cumulative = true) →
          line.cumulative = true ∧ (windowSamples c w es).getLast?.map HistSample.hist = some line.hist)) :
    LogTracks c (es ++ [e]) (log ++ lines) := by
  have hother : ∀ w, Completed c w es ∨ ¬ w < e.time / c → lines.filter (fun l => l.whence = w * c) = [] := by
    intro w hw
    apply List.filter_eq_nil_iff.mpr
    intro l hl heq
    obtain ⟨w', hwhence, hnot, hlt⟩ := hlines l hl
    have hww : w' = w := Nat.eq_of_mul_eq_mul_right hc (hwhence.symm.trans (of_decide_eq_true heq))
    subst hww
    exact hw.elim hnot fun h => h hlt
  constructor
  · intro w hcomp hsamples
    by_cases hold : Completed c w es
    · obtain ⟨a, ha, hwa⟩ := hold
      have hne : e.time / c ≠ w := by
        have hae := Nat.div_le_div_right (c := c) (hle a ha)
        omega
      rw [windowSamples_append_of_ne hne] at hsamples ⊢
      obtain ⟨line, hline, hplain, hcum⟩ := h.logged w ⟨a, ha, hwa⟩ hsamples
      refine ⟨line, ?_, ?_, ?_⟩
      · rw [List.filter_append, hline, hother w (.inl ⟨a, ha, hwa⟩), List.append_nil]
      · exact fun hall => hplain fun x hx => hall x (List.mem_append_left _ hx)
      · exact fun hall => hcum fun x hx => hall x (List.mem_append_left _ hx)
    · have hlt : w < e.time / c := (completed_append.mp hcomp).resolve_left hold
      rw [windowSamples_append_of_ne hlt.ne'] at hsamples ⊢
      obtain ⟨line, rfl, hwhence, hplain, hcum⟩ := hnew w hold hlt hsamples
      refine ⟨line, ?_, hplain, hcum⟩
      rw [List.filter_append, h.notYet w hold]
      simp [hwhence]
  · intro w hcomp
    obtain ⟨hold, hlt⟩ := not_or.mp (fun h => hcomp (completed_append.mpr h))
    rw [List.filter_append, h.notYet w hold, hother w (.inr hlt)]
    rfl

theorem LogTracks.append_nil {c : Nat} {es : List (HistEvent ν)} {log : List (HistLine ν)}
    (h : LogTracks c es log) (hc : 0 < c) {e : HistEvent ν} (hle : ∀ a ∈ es, a.time ≤ e.time)
    (hnone : ∀ w, ¬ Completed c w es → w < e.time / c → windowSamples c w es = []) :
    LogTracks c (es ++ [e]) log := by
  have happ := @LogTracks.append _ c es log [] h hc e hle (by simp)
    (fun w hnot hlt hne => absurd (hnone w hnot hlt) hne)
  rwa [List.append_nil] at happ

def TierTracks (c : Nat) (es : List (HistEvent ν)) : Option (Histotier ν) → Prop
  | none => ∀ w, ¬ Completed c w es → windowSamples c w es = []
  | some ht => ∃ w, ht.Represents c w (windowSamples c w es) ∧ (∃ e ∈ es, e.time / c = w) ∧
      ∀ e ∈ es, e.time / c ≤ w

theorem eq_of_not_completed {c w w' : Nat} {es : List (HistEvent ν)} (hlast : ∃ e ∈ es, e.time / c = w)
    (hle : ∀ e ∈ es, e.time / c ≤ w) (hnot : ¬ Completed c w' es) (hsamples : windowSamples c w' es ≠ []) :
    w' = w := by
  obtain ⟨e, he, hew⟩ := hlast
  obtain ⟨x, hx⟩ := List.exists_mem_of_ne_nil _ hsamples
  obtain ⟨hmem, hxw⟩ := mem_windowSamples.mp hx
  have hxle := hle _ hmem
  have hge : ¬ w' < w := fun hlt => hnot ⟨e, he, hew ▸ hlt⟩
  have hxt : (HistEvent.sample x).time / c = w' := hxw
  omega

theorem not_completed_last {c w : Nat} {es : List (HistEvent ν)} (hle : ∀ e ∈ es, e.time / c ≤ w) :
    ¬ Completed c w es := by
  rintro ⟨e, he, hlt⟩
  have := hle e he
  omega

theorem nothing_completed {c w q : Nat} {es : List (HistEvent ν)} (hlast : ∃ e ∈ es, e.time / c = w)
    (hle : ∀ e ∈ es, e.time / c ≤ w) (hq : q ≤ w) (w' : Nat) (hnot : ¬ Completed c w' es) (hlt : w' < q) :
    windowSamples c w' es = [] := by
  by_contra hne
  have hw' := eq_of_not_completed hlast hle hnot hne
  omega

theorem windowSamples_later {c w q : Nat} {es : List (HistEvent ν)} (hle : ∀ e ∈ es, e.time / c ≤ w)
    (hq : w < q) : windowSamples c q es = [] := by
  by_contra hne
  obtain ⟨y, hy⟩ := List.exists_mem_of_ne_nil _ hne
  obtain ⟨hmem, hyq⟩ := mem_windowSamples.mp hy
  have hyw : y.time / c ≤ w := hle _ hmem
  omega

theorem last_append (c : Nat) {es : List (HistEvent ν)} {e : HistEvent ν} (hle : ∀ a ∈ es, a.time ≤ e.time) :
    (∃ a ∈ es ++ [e], a.time / c = e.time / c) ∧ ∀ a ∈ es ++ [e], a.time / c ≤ e.time / c := by
  refine ⟨⟨e, List.mem_append_right _ List.mem_cons_self, rfl⟩, fun a ha => ?_⟩
  rcases List.mem_append.mp ha with ha | ha
  · exact Nat.div_le_div_right (hle a ha)
  · rw [List.mem_singleton.mp ha]

theorem represents_nil {ht : Histotier ν} {c w : Nat} (hcadence : ht.cadence = c)
    (hperiod : ht.lastPeriod = w)
    (hsecs : ∀ i, ht.secs i = none) (hflag : ht.cumulative = false) : ht.Represents c w [] where
  cadence := hcadence
  lastPeriod := hperiod
  outside i _ := hsecs i
  none_iff := ⟨fun _ => rfl, fun _ => hsecs⟩
  nonempty i h hi := absurd (hi.symm.trans (hsecs i)) (Option.some_ne_none h)
  plain _ := ⟨hflag, by simp [hsecs]⟩
  cumulated _ := ⟨fun hlen => absurd hlen (by simp), fun x hx => absurd hx (by simp)⟩

theorem roll_lines {conf : HistConfig} (hconf : conf.histogram = true) (hfilter : conf.filtered = false)
    {ht : Histotier ν} {c w : Nat} {es : List (HistEvent ν)} {e : HistEvent ν}
    (h : ht.Represents c w (windowSamples c w es)) (hc : 0 < c) (hw : 0 < w)
    (hlast : ∃ a ∈ es, a.time / c = w) (hle : ∀ a ∈ es, a.time / c ≤ w) (hlt : w < e.time / c) {flag : Bool}
    (hplain : (∀ x, .sample x ∈ es ++ [e] → x.cumulative = false) → flag = false)
    (hcum : (∀ x, .sample x ∈ es ++ [e] → x.cumulative = true) → windowSamples c w es ≠ [] → flag = true)
    {lines : List (HistLine ν)} (hlines : lines = (sweepRollNLog conf { ht with cumulative := flag }).2) :
    (∀ l ∈ lines, ∃ w', l.whence = w' * c ∧ ¬ Completed c w' es ∧ w' < e.time / c) ∧
    ∀ w', ¬ Completed c w' es → w' < e.time / c → windowSamples c w' es ≠ [] →
      ∃ line, lines = [line] ∧ line.whence = w' * c ∧
        ((∀ x, .sample x ∈ es ++ [e] → x.cumulative = false) →
          line.cumulative = false ∧ line.hist = ((windowSamples c w' es).map HistSample.hist).sum) ∧
        ((∀ x, .sample x ∈ es ++ [e] → x.cumulative = true) →
          line.cumulative = true ∧ (windowSamples c w' es).getLast?.map HistSample.hist =
            some line.hist) := by
  have hmem : ∀ {p : Bool}, (∀ x, .sample x ∈ es ++ [e] → x.cumulative = p) →
      ∀ x ∈ windowSamples c w es, x.cumulative = p :=
    fun hall x hx => hall x (List.mem_append_left _ (mem_windowSamples.mp hx).1)
  by_cases hxs : windowSamples c w es = []
  · rw [hxs] at h
    rw [hlines, lines_of_empty conf h]
    refine ⟨fun l hl => absurd hl List.not_mem_nil, fun w' hnot _ hne => ?_⟩
    rw [eq_of_not_completed hlast hle hnot hne] at hne
    exact absurd hxs hne
  · obtain ⟨tgt, htgt, hsum, hlastSample⟩ := lines_of_samples hconf hfilter h hc hw hxs flag
    rw [hlines, htgt]
    constructor
    · intro l hl
      rw [List.mem_singleton.mp hl]
      exact ⟨w, rfl, not_completed_last hle, hlt⟩
    · intro w' hnot _ hne
      rw [eq_of_not_completed hlast hle hnot hne]
      refine ⟨_, rfl, rfl, fun hall => ?_, fun hall => ?_⟩
      · exact ⟨hplain hall, hsum (hplain hall) (hmem hall)⟩
      · exact ⟨hcum hall hxs, hlastSample (hcum hall hxs) (hmem hall)⟩

theorem represents_insert {ht : Histotier ν} {c w : Nat} {xs : List (HistSample ν)} (h : ht.Represents c w xs)
    (hc : 0 < c) {x : HistSample ν} (hx : x.hist ≠ 0) (hle : ∀ y ∈ xs, y.time ≤ x.time)
    (hxw : x.time / c = w) (hxsw : ∀ y ∈ xs, y.time / c = w) {flag : Bool}
    (hplain : (∀ y ∈ xs ++ [x], y.cumulative = false) → flag = false)
    (hcum : (∀ y ∈ xs ++ [x], y.cumulative = true) → xs ≠ [] → flag = true) {ht' : Histotier ν}
    (hcadence : ht'.cadence = c) (hperiod : ht'.lastPeriod = w) (hflag : ht'.cumulative = flag)
    (hsecs : ht'.secs = Function.update ht.secs (x.time % c)
      (some ((if flag then 0 else (ht.secs (x.time % c)).getD 0) + x.hist))) :
    ht'.Represents c w (xs ++ [x]) := by
  have hmod : x.time % c < c := Nat.mod_lt _ hc
  refine ⟨hcadence, hperiod, ?_, ?_, ?_, ?_, ?_⟩
  · intro i hi
    rw [hsecs, Function.update_of_ne (by omega)]
    exact h.outside i hi
  · refine ⟨fun hall => absurd (hall (x.time % c)) ?_, fun hxs => absurd hxs (by simp)⟩
    rw [hsecs, Function.update_self]
    exact Option.some_ne_none _
  · intro i hist hi
    rw [hsecs] at hi
    by_cases hix : i = x.time % c
    · subst hix
      rw [Function.update_self] at hi
      rw [← Option.some.inj hi, add_comm]
      exact add_ne_zero_of_left hx
    · rw [Function.update_of_ne hix] at hi
      exact h.nonempty i hist hi
  · intro hall
    obtain rfl := hplain hall
    obtain ⟨-, hsum⟩ := h.plain (fun y hy => hall y (List.mem_append_left _ hy))
    refine ⟨hflag, ?_⟩
    have hupd : ∀ i, (ht'.secs i).getD 0 =
        Function.update (fun i => (ht.secs i).getD 0) (x.time % c)
          ((ht.secs (x.time % c)).getD 0 + x.hist) i := by
      intro i
      rw [hsecs]
      by_cases hix : i = x.time % c
      · subst hix
        simp
      · simp [hix]
    have hmem : x.time % c ∈ Finset.range c := Finset.mem_range.mpr hmod
    rw [Finset.sum_congr rfl (fun i _ => hupd i), Finset.sum_update_of_mem hmem,
      Finset.sdiff_singleton_eq_erase, List.map_append, List.sum_append, ← hsum,
      ← Finset.add_sum_erase _ _ hmem]
    simp only [List.map_cons, List.map_nil, List.sum_singleton]
    abel
  · intro hall
    refine ⟨fun hlen => hflag.trans (hcum hall fun hxs => by simp [hxs] at hlen), ?_⟩
    intro y hy
    rw [List.getLast?_concat] at hy
    obtain rfl := Option.some.inj hy
    have hold : (if flag then 0 else (ht.secs (x.time % c)).getD 0) = 0 := by
      by_cases hxs : xs = []
      · rw [h.none_iff.mpr hxs]
        simp
      · rw [hcum hall hxs]
        rfl
    refine ⟨by rw [hsecs, Function.update_self, hold, zero_add], ?_⟩
    intro j hj
    rw [hsecs, Function.update_of_ne (by omega)]
    by_cases hxs : xs = []
    · exact h.none_iff.mpr hxs j
    · obtain ⟨y, hy⟩ : ∃ y, xs.getLast? = some y := Option.isSome_iff_exists.mp (by simpa using hxs)
      have hymem := List.mem_of_getLast? hy
      have hyx := hle y hymem
      have hyw := hxsw y hymem
      have hlast := (h.cumulated (fun z hz => hall z (List.mem_append_left _ hz))).2 y hy
      apply hlast.2 j
      have hdy := Nat.div_add_mod y.time c
      have hdx := Nat.div_add_mod x.time c
      rw [hyw] at hdy
      rw [hxw] at hdx
      omega

theorem tierTracks_hasData {c w : Nat} {es : List (HistEvent ν)} {ht : Histotier ν}
    (h : ht.Represents c w (windowSamples c w es)) (hlast : ∃ e ∈ es, e.time / c = w)
    (hle : ∀ e ∈ es, e.time / c ≤ w) : TierTracks c es (if ht.hasData then some ht else none) := by
  split_ifs with hdata
  · exact ⟨w, h, hlast, hle⟩
  · intro w' hnot
    by_contra hne
    have hw' := eq_of_not_completed hlast hle hnot hne
    subst hw'
    refine hne (h.none_iff.mp fun i => ?_)
    by_cases hi : i < c
    · simp only [Histotier.hasData, Bool.or_eq_true, not_or, List.any_eq_true, List.mem_range, not_exists,
        not_and, h.cadence] at hdata
      simpa using hdata.1 i hi
    · exact h.outside i (by omega)

def windowLength (periodS : Nat) : Nat := max 1 (min 60 periodS)

theorem allocHistotier_cadence {periodS : Nat} (h : periodS < 256 ∨ 60 ≤ periodS % 256) :
    (allocHistotier periodS : Histotier ν).cadence = windowLength periodS := by
  unfold allocHistotier windowLength
  simp only
  split_ifs <;> omega

variable [DecidableEq ν]

def histInsert (ht : Histotier ν) (secOff : Nat) (input : HistInput ν) : Nat → Option (Multiset ν) :=
  let old := (ht.secs secOff).getD 0
  match input with
  | .value val cnt =>
    if cnt = 0 then ht.secs
    else
      let old := if ht.cumulative then old.filter (· ≠ val) else old
      Function.update ht.secs secOff (some (old + Multiset.replicate cnt val))
  | .whole hist =>
    let old := if ht.cumulative then 0 else old
    Function.update ht.secs secOff (some (old + hist))
  | .nothing => ht.secs

def updateHistotier (conf : HistConfig) (ht : Histotier ν) (cumulative : Bool)
    (s : Nat) (input : HistInput ν) :
    Histotier ν × List (HistLine ν) :=
  if ht.cadence = 0 then (ht, [])
  else
    let thisPeriod := s / ht.cadence
    let secOff := s % ht.cadence
    let ht := { ht with cumulative := cumulative || ht.cumulative }
    let (ht, lines) :=
      if thisPeriod > ht.lastPeriod then
        let (ht, lines) := sweepRollNLog conf ht
        ({ ht with cumulative := false }, lines)
      else (ht, [])
    ({ ht with
        secs := histInsert ht secOff input
        lastPeriod := thisPeriod
        lastSecOff := secOff }, lines)

/-- `histogram_metric` for a whole histogram of a check with the given period, in seconds. -/
def histogramMetric (conf : HistConfig) (periodS : Nat) (st : HistState ν) (x : HistSample ν) : HistState ν :=
  let (ht, lines) := updateHistotier conf (st.tier.getD (allocHistotier periodS))
    x.cumulative x.time (.whole x.hist)
  ⟨some ht, st.log ++ lines⟩

def heartbeatMetric (conf : HistConfig) (st : HistState ν) (s : Nat) : HistState ν :=
  match st.tier with
  | none => st
  | some ht =>
    let (ht, lines) := updateHistotier conf ht false s .nothing
    ⟨if ht.hasData then some ht else none, st.log ++ lines⟩

def histStep (conf : HistConfig) (periodS : Nat) (st : HistState ν) : HistEvent ν → HistState ν
  | .sample x => histogramMetric conf periodS st x
  | .heartbeat s => heartbeatMetric conf st s

def histRun (conf : HistConfig) (periodS : Nat) (es : List (HistEvent ν)) : HistState ν :=
  es.foldl (histStep conf periodS) ⟨none, []⟩

theorem updateHistotier_same (conf : HistConfig) {ht : Histotier ν} (hc : 0 < ht.cadence) (cumulative : Bool)
    {s : Nat} (input : HistInput ν) (hs : s / ht.cadence = ht.lastPeriod) :
    updateHistotier conf ht cumulative s input =
      ({ ht with
          cumulative := cumulative || ht.cumulative
          secs := histInsert { ht with cumulative := cumulative || ht.cumulative } (s % ht.cadence) input
          lastPeriod := s / ht.cadence
          lastSecOff := s % ht.cadence }, []) := by
  have hnot : ¬ s / ht.cadence > ht.lastPeriod := by omega
  simp only [updateHistotier, if_neg hc.ne', if_neg hnot]

theorem updateHistotier_roll (conf : HistConfig) {ht : Histotier ν} (hc : 0 < ht.cadence) (cumulative : Bool)
    {s : Nat} (input : HistInput ν) (hs : ht.lastPeriod < s / ht.cadence) :
    updateHistotier conf ht cumulative s input =
      ({ (sweepRollNLog conf { ht with cumulative := cumulative || ht.cumulative }).1 with
          cumulative := false
          secs := histInsert
            { (sweepRollNLog conf { ht with cumulative := cumulative || ht.cumulative }).1 with
              cumulative := false } (s % ht.cadence) input
          lastPeriod := s / ht.cadence
          lastSecOff := s % ht.cadence },
        (sweepRollNLog conf { ht with cumulative := cumulative || ht.cumulative }).2) := by
  simp only [updateHistotier, if_neg hc.ne', if_pos hs]

theorem update_sample {conf : HistConfig} {ht : Histotier ν} {c w : Nat} {xs : List (HistSample ν)}
    (h : ht.Represents c w xs) (hc : 0 < c) {x : HistSample ν} (hx : x.hist ≠ 0)
    (hle : ∀ y ∈ xs, y.time ≤ x.time) (hxsw : ∀ y ∈ xs, y.time / c = w) :
    (x.time / c = w → (updateHistotier conf ht x.cumulative x.time (.whole x.hist)).2 = [] ∧
      (updateHistotier conf ht x.cumulative x.time (.whole x.hist)).1.Represents c w (xs ++ [x])) ∧
    (w < x.time / c → (updateHistotier conf ht x.cumulative x.time (.whole x.hist)).2 =
        (sweepRollNLog conf { ht with cumulative := x.cumulative || ht.cumulative }).2 ∧
      (updateHistotier conf ht x.cumulative x.time (.whole x.hist)).1.Represents c (x.time / c) [x]) := by
  have hcad : 0 < ht.cadence := h.cadence.symm ▸ hc
  constructor
  · intro hw
    rw [updateHistotier_same conf hcad x.cumulative (.whole x.hist) (by rw [h.cadence, h.lastPeriod, hw])]
    refine ⟨rfl, represents_insert h hc hx hle hw hxsw ?_ ?_ h.cadence ?_ rfl ?_⟩
    · intro hall
      have hplain := (h.plain fun y hy => hall y (List.mem_append_left _ hy)).1
      rw [hplain, hall x (by simp)]
      rfl
    · intro hall _
      rw [hall x (by simp)]
      rfl
    · exact h.cadence.symm ▸ hw
    · rw [h.cadence]
      rfl
  · intro hw
    rw [updateHistotier_roll conf hcad x.cumulative (.whole x.hist)
      (by rw [h.cadence, h.lastPeriod]; exact hw)]
    obtain ⟨hc', hsecs⟩ := @sweepRollNLog_empty _ conf _ _ _ _ h hc (x.cumulative || ht.cumulative)
    have hnil : ({ (sweepRollNLog conf { ht with cumulative := x.cumulative || ht.cumulative }).1 with
        cumulative := false
        lastPeriod := x.time / c } : Histotier ν).Represents c (x.time / c) [] :=
      represents_nil hc' rfl hsecs rfl
    refine ⟨rfl, @represents_insert _ _ _ _ _ hnil hc _ hx (by simp) rfl (by simp) _ (fun _ => rfl)
      (fun _ hne => absurd rfl hne) _ hc' ?_ rfl ?_⟩
    · rw [h.cadence]
    · rw [h.cadence]
      rfl

theorem update_heartbeat {conf : HistConfig} {ht : Histotier ν} {c w : Nat} {xs : List (HistSample ν)}
    (h : ht.Represents c w xs) (hc : 0 < c) (s : Nat) :
    (s / c = w → (updateHistotier conf ht false s .nothing).2 = [] ∧
      (updateHistotier conf ht false s .nothing).1.Represents c w xs) ∧
    (w < s / c → (updateHistotier conf ht false s .nothing).2 =
        (sweepRollNLog conf { ht with cumulative := ht.cumulative }).2 ∧
      (updateHistotier conf ht false s .nothing).1.Represents c (s / c) []) := by
  have hcad : 0 < ht.cadence := h.cadence.symm ▸ hc
  constructor
  · intro hw
    rw [updateHistotier_same conf hcad false .nothing (by rw [h.cadence, h.lastPeriod, hw])]
    refine ⟨rfl, h.cadence, ?_, h.outside, h.none_iff, h.nonempty, h.plain, h.cumulated⟩
    exact h.cadence.symm ▸ hw
  · intro hw
    rw [updateHistotier_roll conf hcad false .nothing (by rw [h.cadence, h.lastPeriod]; exact hw)]
    obtain ⟨hc', hsecs⟩ := @sweepRollNLog_empty _ conf _ _ _ _ h hc ht.cumulative
    exact ⟨rfl, represents_nil hc' (by rw [h.cadence]) hsecs rfl⟩

def HistEvent.Fits (c : Nat) (es : List (HistEvent ν)) : HistEvent ν → Prop
  | .sample x => c ≤ x.time ∧ x.hist ≠ 0
  | .heartbeat s => c ≤ s ∧ ((∀ x, .sample x ∈ es → x.cumulative = true) →
      ∀ w, ¬ Completed c w es → w < s / c → (windowSamples c w es).length ≠ 1)

theorem tracks_sample {conf : HistConfig} (hconf : conf.histogram = true) (hfilter : conf.filtered = false)
    {c periodS : Nat} (hc : 0 < c) (halloc : (allocHistotier periodS : Histotier ν).cadence = c)
    {es : List (HistEvent ν)} {st : HistState ν} (hlog : LogTracks c es st.log)
    (htier : TierTracks c es st.tier)
    (hpos : ∀ a ∈ es, 0 < a.time / c) {x : HistSample ν} (hle : ∀ a ∈ es, a.time ≤ x.time)
    (hfits : (HistEvent.sample x).Fits c es) :
    LogTracks c (es ++ [.sample x]) (histogramMetric conf periodS st x).log ∧
      TierTracks c (es ++ [.sample x]) (histogramMetric conf periodS st x).tier := by
  have hle' : ∀ a ∈ es, a.time / c ≤ x.time / c := fun a ha => Nat.div_le_div_right (hle a ha)
  obtain ⟨hself, hin⟩ := @last_append _ c es (.sample x) hle
  unfold histogramMetric
  cases htr : st.tier with
  | none =>
    rw [htr] at htier
    have hnew : (allocHistotier periodS : Histotier ν).Represents c 0 [] :=
      represents_nil halloc rfl (fun _ => rfl) rfl
    have hq : 0 < x.time / c := Nat.div_pos hfits.1 hc
    obtain ⟨hlines, hrep⟩ := (@update_sample _ _ conf _ _ _ _ hnew hc _ hfits.2 (by simp) (by simp)).2 hq
    have hempty : windowSamples c (x.time / c) es = [] := by
      apply htier
      rintro ⟨a, ha, hlt⟩
      have := hle' a ha
      omega
    rw [lines_of_empty conf hnew] at hlines
    simp only [Option.getD_none, hlines, List.append_nil]
    constructor
    · exact hlog.append_nil hc hle (fun w hnot _ => htier w hnot)
    · refine ⟨x.time / c, ?_, hself, hin⟩
      rw [windowSamples_append_sample es rfl, hempty]
      exact hrep
  | some ht =>
    rw [htr] at htier
    obtain ⟨w, hrep, hlast, hlew⟩ := htier
    have hxle : ∀ y ∈ windowSamples c w es, y.time ≤ x.time :=
      fun y hy => hle _ (mem_windowSamples.mp hy).1
    have hxw : ∀ y ∈ windowSamples c w es, y.time / c = w := fun y hy => (mem_windowSamples.mp hy).2
    obtain ⟨hsame, hroll⟩ := @update_sample _ _ conf _ _ _ _ hrep hc _ hfits.2 hxle hxw
    obtain ⟨a, ha, haw⟩ := hlast
    have hge : w ≤ x.time / c := haw ▸ hle' a ha
    rcases hge.eq_or_lt with heq | hlt
    · obtain ⟨hlines, hrep'⟩ := hsame heq.symm
      simp only [Option.getD_some, hlines, List.append_nil]
      constructor
      · exact hlog.append_nil hc hle (nothing_completed ⟨a, ha, haw⟩ hlew heq.ge)
      · refine ⟨w, ?_, heq ▸ hself, fun b hb => heq ▸ hin b hb⟩
        rw [windowSamples_append_sample es heq.symm]
        exact hrep'
    · obtain ⟨hlines, hrep'⟩ := hroll hlt
      simp only [Option.getD_some]
      have hempty : windowSamples c (x.time / c) es = [] := windowSamples_later hlew hlt
      constructor
      · have hfacts := roll_lines hconf hfilter hrep hc (haw ▸ hpos a ha) ⟨a, ha, haw⟩ hlew
          (e := .sample x) hlt ?_ ?_ hlines
        · exact hlog.append hc hle hfacts.1 hfacts.2
        · intro hall
          rw [hall x (by simp), (hrep.plain fun y hy =>
            hall y (List.mem_append_left _ (mem_windowSamples.mp hy).1)).1]
          rfl
        · intro hall _
          rw [hall x (by simp)]
          rfl
      · refine ⟨x.time / c, ?_, hself, hin⟩
        rw [windowSamples_append_sample es rfl, hempty]
        exact hrep'

theorem tracks_heartbeat {conf : HistConfig} (hconf : conf.histogram = true) (hfilter : conf.filtered = false)
    {c : Nat} (hc : 0 < c) {es : List (HistEvent ν)} {st : HistState ν} (hlog : LogTracks c es st.log)
    (htier : TierTracks c es st.tier) (hpos : ∀ a ∈ es, 0 < a.time / c) {s : Nat} (hle : ∀ a ∈ es, a.time ≤ s)
    (hfits : (HistEvent.heartbeat s).Fits c es) :
    LogTracks c (es ++ [.heartbeat s]) (heartbeatMetric conf st s).log ∧
      TierTracks c (es ++ [.heartbeat s]) (heartbeatMetric conf st s).tier := by
  obtain ⟨hself, hin⟩ := @last_append _ c es (.heartbeat s) hle
  unfold heartbeatMetric
  cases htr : st.tier with
  | none =>
    rw [htr] at htier
    refine ⟨hlog.append_nil hc hle (fun w hnot _ => htier w hnot), ?_⟩
    rw [htr]
    intro w hnot
    rw [windowSamples_append_heartbeat]
    exact htier w (fun h => hnot (completed_append.mpr (.inl h)))
  | some ht =>
    rw [htr] at htier
    obtain ⟨w, hrep, ⟨a, ha, haw⟩, hlew⟩ := htier
    obtain ⟨hsame, hroll⟩ := @update_heartbeat _ _ conf _ _ _ _ hrep hc s
    have hge : w ≤ s / c := haw ▸ Nat.div_le_div_right (hle a ha)
    rcases hge.eq_or_lt with heq | hlt
    · obtain ⟨hlines, hrep'⟩ := hsame heq.symm
      simp only [hlines, List.append_nil]
      refine ⟨hlog.append_nil hc hle (nothing_completed ⟨a, ha, haw⟩ hlew heq.ge), ?_⟩
      rw [← windowSamples_append_heartbeat c w es s] at hrep'
      exact tierTracks_hasData hrep' (heq ▸ hself) (fun b hb => heq ▸ hin b hb)
    · obtain ⟨hlines, hrep'⟩ := hroll hlt
      constructor
      · have hfacts := roll_lines hconf hfilter hrep hc (haw ▸ hpos a ha) ⟨a, ha, haw⟩ hlew
          (e := .heartbeat s) hlt ?_ ?_ hlines
        · exact hlog.append hc hle hfacts.1 hfacts.2
        · intro hall
          exact (hrep.plain fun y hy => hall y (List.mem_append_left _ (mem_windowSamples.mp hy).1)).1
        · intro hall hne
          have hes : ∀ x, .sample x ∈ es → x.cumulative = true :=
            fun x hx => hall x (List.mem_append_left _ hx)
          have hone := hfits.2 hes w (not_completed_last hlew) hlt
          have hlen : 0 < (windowSamples c w es).length := List.length_pos_iff.mpr hne
          exact (hrep.cumulated fun y hy => hes y (mem_windowSamples.mp hy).1).1 (by omega)
      · rw [← windowSamples_later hlew hlt, ← windowSamples_append_heartbeat c (s / c) es s] at hrep'
        exact tierTracks_hasData hrep' hself hin

theorem histRun_tracks {conf : HistConfig} (hconf : conf.histogram = true) (hfilter : conf.filtered = false)
    {c periodS : Nat} (hc : 0 < c) (halloc : (allocHistotier periodS : Histotier ν).cadence = c)
    (es : List (HistEvent ν)) (hsorted : es.Pairwise (fun a b => a.time ≤ b.time))
    (hfits : ∀ pre e post, es = pre ++ e :: post → e.Fits c pre) :
    LogTracks c es (histRun conf periodS es).log ∧ TierTracks c es (histRun conf periodS es).tier := by
  induction es using List.reverseRecOn with
  | nil =>
    refine ⟨⟨?_, fun _ _ => rfl⟩, fun _ _ => rfl⟩
    rintro w ⟨e, he, -⟩
    exact absurd he List.not_mem_nil
  | append_singleton es e ih =>
    obtain ⟨hsorted', -, hle⟩ := List.pairwise_append.mp hsorted
    have hpre : ∀ pre a post, es = pre ++ a :: post → a.Fits c pre := by
      rintro pre a post rfl
      exact hfits pre a (post ++ [e]) (by simp)
    obtain ⟨hlog, htier⟩ := ih hsorted' hpre
    have hpos : ∀ a ∈ es, 0 < a.time / c := by
      intro a ha
      obtain ⟨pre, post, hsplit⟩ := List.append_of_mem ha
      have ha' := hpre pre a post hsplit
      cases a with
      | sample x => exact Nat.div_pos ha'.1 hc
      | heartbeat s => exact Nat.div_pos ha'.1 hc
    have hlast : ∀ a ∈ es, a.time ≤ e.time := fun a ha => hle a ha e List.mem_cons_self
    have hfit := hfits es e [] rfl
    rw [histRun, List.foldl_append]
    cases e with
    | sample x => exact tracks_sample hconf hfilter hc halloc hlog htier hpos hlast hfit
    | heartbeat s => exact tracks_heartbeat hconf hfilter hc hlog htier hpos hlast hfit

/-- The windows are logged faithfully for every sequence at times that do not
decrease, from the second window on, of histograms that are not empty, when the
period survives being put in a byte, and when a heartbeat never completes a window
of one cumulative sample. -/
theorem histogram_windows_logged {conf : HistConfig} (hconf : conf.histogram = true)
    (hfilter : conf.filtered = false) {periodS : Nat} (hperiod : periodS < 256 ∨ 60 ≤ periodS % 256)
    (es : List (HistEvent ν)) (hsorted : es.Pairwise (fun a b => a.time ≤ b.time))
    (hfits : ∀ pre e post, es = pre ++ e :: post → e.Fits (windowLength periodS) pre) :
    LoggedFaithfully (windowLength periodS) es (histRun conf periodS es).log := by
  have hc : 0 < windowLength periodS := by
    unfold windowLength
    omega
  exact (histRun_tracks hconf hfilter hc (allocHistotier_cadence hperiod) es hsorted hfits).1.logged

end

def twoCumulative : List (HistEvent Nat) :=
  [.sample ⟨60, true, {5}⟩, .sample ⟨61, true, {5, 6}⟩, .heartbeat 120]

theorem histogram_windows_logged_two :
    LoggedFaithfully (windowLength 60) twoCumulative (histRun ⟨true, false⟩ 60 twoCumulative).log := by
  apply histogram_windows_logged rfl rfl (.inl (by decide)) twoCumulative
  · simp [twoCumulative, HistEvent.time]
  · intro pre e post hsplit
    rcases pre with _ | ⟨a, _ | ⟨b, _ | ⟨d, pre⟩⟩⟩ <;> simp [twoCumulative] at hsplit
    · rw [← hsplit.1]
      exact ⟨by decide, by simp⟩
    · rw [← hsplit.2.1]
      exact ⟨by decide, by simp⟩
    · obtain ⟨rfl, rfl, rfl, -⟩ := hsplit
      refine ⟨by decide, fun _ w hnot hlt => ?_⟩
      have hw : w = 1 := by
        have hone : (HistEvent.sample ⟨60, true, ({5} : Multiset Nat)⟩).time / windowLength 60 =
          1 := by decide
        have hge : ¬ w < 1 := fun hlt' => hnot ⟨.sample ⟨60, true, {5}⟩, by simp, hone ▸ hlt'⟩
        have hlt' : w < 2 := hlt
        omega
      subst hw
      decide

def oneCumulative : List (HistEvent Nat) := [.sample ⟨60, true, {5}⟩, .heartbeat 120]

def onePlain : List (HistEvent Nat) := [.sample ⟨60, false, {5}⟩, .heartbeat 120]

theorem histogram_windows_logged_fails :
    ¬ LoggedFaithfully (windowLength 60) oneCumulative (histRun ⟨true, false⟩ 60 oneCumulative).log ∧
      ¬ LoggedFaithfully (windowLength 300) onePlain (histRun ⟨true, false⟩ 300 onePlain).log := by
  constructor
  · intro h
    have hlog : (histRun ⟨true, false⟩ 60 oneCumulative).log = [⟨60, false, {5}⟩] := by decide +kernel
    obtain ⟨line, hline, -, hcum⟩ := h 1 ⟨.heartbeat 120, by simp [oneCumulative], by decide⟩ (by decide)
    have hall : ∀ x, .sample x ∈ oneCumulative → x.cumulative = true := by simp [oneCumulative]
    have htrue := (hcum hall).1
    rw [hlog, List.filter_cons_of_pos (by decide)] at hline
    rw [← (List.cons.inj hline).1] at htrue
    exact absurd htrue (by decide)
  · intro h
    have hlog : (histRun ⟨true, false⟩ 300 onePlain).log = [⟨44, false, {5}⟩] := by decide +kernel
    obtain ⟨line, hline, -⟩ := h 1 ⟨.heartbeat 120, by simp [onePlain], by decide⟩ (by decide)
    rw [hlog, List.filter_cons_of_neg (by decide)] at hline
    exact absurd hline (by simp)

end Reconnoiter
