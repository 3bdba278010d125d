import Reconnoiter.Uuid

/-! `noit_check_watch`: a watch is a copy of a check that runs at a period of its own, which is rounded and
bounded by what is configured. Watches are shared by their check and their period. -/

namespace Reconnoiter

structure WatchedCheck where
  ptr : Nat
  period : Int
  transientMinPeriod : Int
  transientPeriodGranularity : Int
  oncheck : Bool
  deriving DecidableEq

structure TransientAttrs where
  minPeriod : Option Int
  granularity : Option Int
  deriving DecidableEq

/-- What a request finds: the registered checks, the attributes of `//checks`, those that LMDB has of a
check when it is in use, and those at or above the check's node of the XML. -/
structure WatchEnv where
  polls : Uuid → Option WatchedCheck
  checks : TransientAttrs
  lmdb : Option (Uuid → TransientAttrs)
  node : Uuid → TransientAttrs

structure Watch where
  ptr : Nat
  checkid : Uuid
  period : Int
  deriving DecidableEq

structure Watches where
  watchlist : List Watch
  nextPtr : Nat
  deriving DecidableEq

namespace WatchEnv

def lmdbOr (attr checks : Option Int) (default : Int) : Int :=
  match attr with
  | some n => if n > 0 then n else default
  | none => checks.getD default

def minimumPi (env : WatchEnv) (checkid : Uuid) : Int :=
  match env.polls checkid with
  | some f => if f.transientMinPeriod > 0 then f.transientMinPeriod else 1000
  | none =>
    match env.lmdb with
    | some attrs => lmdbOr (attrs checkid).minPeriod env.checks.minPeriod 1000
    | none => (env.node checkid).minPeriod.getD (env.checks.minPeriod.getD 1000)

def granularityPi (env : WatchEnv) (checkid : Uuid) : Int :=
  match env.polls checkid with
  | some f => if f.transientPeriodGranularity < 0 then f.transientPeriodGranularity else 500
  | none =>
    match env.lmdb with
    | some attrs => lmdbOr (attrs checkid).granularity env.checks.granularity 500
    | none => (env.node checkid).granularity.getD (env.checks.granularity.getD 500)

def configuredGranularity (env : WatchEnv) (checkid : Uuid) : Option Int :=
  match env.lmdb with
  | some attrs => if (attrs checkid).granularity.isSome then none else env.checks.granularity
  | none => (env.node checkid).granularity.or env.checks.granularity

/-- No value stands for a division by zero. -/
def boundedPeriod (env : WatchEnv) (checkid : Uuid) (period : Int) : Option Int :=
  if env.granularityPi checkid = 0 then none
  else some (max (period.tdiv (env.granularityPi checkid) * env.granularityPi checkid)
    (env.minimumPi checkid))

end WatchEnv

namespace Watches

def find (s : Watches) (checkid : Uuid) (period : Int) : Option Watch :=
  s.watchlist.find? fun w => w.checkid = checkid ∧ w.period = period

def insert (s : Watches) (w : Watch) : Watches :=
  if (s.find w.checkid w.period).isSome then s else { s with watchlist := s.watchlist ++ [w] }

/-- `noit_check_watch`: the check it returns, if any. No value stands for the end of the process, by a
division by zero or a null pointer. -/
def noitCheckWatch (env : WatchEnv) (s : Watches) (checkid : Uuid) (period : Int) :
    Option (Option Watch × Watches) :=
  if period = 0 then
    (env.polls checkid).map fun f =>
      -- The registered check itself is listed; the entry has the period it has now.
      let w : Watch := ⟨f.ptr, checkid, f.period⟩
      (some w, s.insert w)
  else
    (env.boundedPeriod checkid period).map fun period =>
      match s.find checkid period with
      | some w => (some w, s)
      | none =>
        match env.polls checkid with
        | none => (none, s)
        | some f =>
          if f.oncheck then (none, s)
          else
            let w : Watch := ⟨s.nextPtr, checkid, period⟩
            (some w, { s.insert w with nextPtr := s.nextPtr + 1 })

def noitCheckWatches (s : Watches) (requests : List (WatchEnv × Uuid × Int)) : Option Watches :=
  requests.foldlM (fun s r => (noitCheckWatch r.1 s r.2.1 r.2.2).map Prod.snd) s

structure Quantized (env : WatchEnv) (s : Watches) (checkid : Uuid) (period : Int) : Prop where
  divides : env.boundedPeriod checkid period ≠ none
  rounded : ∀ f w t, env.polls checkid = some f → 0 < f.transientPeriodGranularity →
    0 < f.transientMinPeriod →
    noitCheckWatch env s checkid period = some (some w, t) → w.period =
      max f.transientMinPeriod (f.transientPeriodGranularity * (period / f.transientPeriodGranularity))
  shared : ∀ w t requests u env' period', noitCheckWatch env s checkid period = some (some w, t) →
    t.noitCheckWatches requests = some u → 0 < period' → env'.boundedPeriod checkid period' = some w.period →
    noitCheckWatch env' u checkid period' = some (some w, u)

variable {env env' : WatchEnv} {s t u : Watches} {checkid : Uuid} {period period' : Int} {w v : Watch}

theorem find_insert (h : s.find checkid period = some w) (v : Watch) :
    (s.insert v).find checkid period = some w := by
  rw [insert]
  split_ifs
  · exact h
  · rw [find, List.find?_append, show s.watchlist.find? _ = some w from h]
    rfl

theorem find_insert_new (h : s.find w.checkid w.period = none) :
    (s.insert w).find w.checkid w.period = some w := by
  rw [insert, if_neg (by simp [h]), find, List.find?_append, show s.watchlist.find? _ = none from h]
  simp

theorem noitCheckWatch_eq (hp : period ≠ 0) (h : noitCheckWatch env s checkid period = some (some w, t)) :
    env.boundedPeriod checkid period = some w.period ∧ w.checkid = checkid ∧
      t.find checkid w.period = some w := by
  rw [noitCheckWatch, if_neg hp] at h
  obtain ⟨b, hb, h⟩ := Option.map_eq_some_iff.mp h
  cases hfind : s.find checkid b with
  | some v =>
    rw [hfind] at h
    obtain ⟨hv, rfl⟩ := Prod.mk.inj h
    obtain rfl := Option.some.inj hv
    have hkey : v.checkid = checkid ∧ v.period = b := by simpa using List.find?_some hfind
    rw [hkey.2]
    exact ⟨hb, hkey.1, hfind⟩
  | none =>
    rw [hfind] at h
    cases hpolls : env.polls checkid with
    | none =>
      rw [hpolls] at h
      cases h
    | some f =>
      simp only [hpolls] at h
      split_ifs at h with hon
      · cases h
      · obtain ⟨hv, rfl⟩ := Prod.mk.inj h
        obtain rfl := Option.some.inj hv
        exact ⟨hb, rfl, @find_insert_new s ⟨s.nextPtr, checkid, b⟩ hfind⟩

theorem find_of_request (hfind : s.find checkid period = some w) {r : WatchEnv × Uuid × Int}
    (h : (noitCheckWatch r.1 s r.2.1 r.2.2).map Prod.snd = some t) : t.find checkid period = some w := by
  rw [noitCheckWatch] at h
  split_ifs at h with hzero
  · rw [Option.map_map] at h
    obtain ⟨f, -, rfl⟩ := Option.map_eq_some_iff.mp h
    exact find_insert hfind _
  · rw [Option.map_map] at h
    obtain ⟨b, -, rfl⟩ := Option.map_eq_some_iff.mp h
    dsimp only [Function.comp_apply]
    split
    · exact hfind
    · split
      · exact hfind
      · split_ifs
        · exact hfind
        · exact find_insert hfind _

theorem find_of_requests {requests : List (WatchEnv × Uuid × Int)} (hfind : s.find checkid period = some w)
    (h : s.noitCheckWatches requests = some t) : t.find checkid period = some w := by
  induction requests generalizing s with
  | nil =>
    obtain rfl := Option.some.inj h
    exact hfind
  | cons r requests ih =>
    rw [noitCheckWatches, List.foldlM_cons] at h
    obtain ⟨next, hnext, h⟩ := Option.bind_eq_some_iff.mp h
    exact ih (find_of_request hfind hnext) h

theorem noitCheckWatch_found (hp : period ≠ 0) (hb : env.boundedPeriod checkid period = some w.period)
    (hfind : s.find checkid w.period = some w) : noitCheckWatch env s checkid period = some (some w, s) := by
  rw [noitCheckWatch, if_neg hp, hb, Option.map_some, hfind]

theorem noitCheckWatch_some {f : WatchedCheck} {b : Int} (hp : period ≠ 0) (hf : env.polls checkid = some f)
    (hb : env.boundedPeriod checkid period = some b) :
    (∃ w t, noitCheckWatch env s checkid period = some (some w, t)) ↔
      (s.find checkid b).isSome ∨ f.oncheck = false := by
  rw [noitCheckWatch, if_neg hp, hb, Option.map_some]
  cases hfind : s.find checkid b with
  | some w => exact ⟨fun _ => .inl rfl, fun _ => ⟨w, s, rfl⟩⟩
  | none =>
    cases hon : f.oncheck with
    | true => simp [hf, hon]
    | false => simp [hf, hon]

end Watches

theorem WatchEnv.granularityPi_eq_zero_iff (env : WatchEnv) (checkid : Uuid) :
    env.granularityPi checkid = 0 ↔ env.polls checkid = none ∧
      env.configuredGranularity checkid = some 0 := by
  rw [granularityPi, configuredGranularity]
  cases env.polls checkid with
  | some f =>
    simp only [reduceCtorEq, false_and, iff_false]
    split_ifs with hneg
    · exact hneg.ne
    · decide
  | none =>
    cases env.lmdb with
    | some attrs =>
      cases hattr : (attrs checkid).granularity with
      | some n =>
        simp only [lmdbOr, hattr, Option.isSome_some, if_true, reduceCtorEq, and_false, iff_false]
        split_ifs with hpos
        · exact hpos.ne'
        · decide
      | none => cases env.checks.granularity <;> simp [lmdbOr, hattr]
    | none =>
      cases (env.node checkid).granularity <;> cases env.checks.granularity <;> simp

theorem WatchEnv.boundedPeriod_registered {env : WatchEnv} {checkid : Uuid} {f : WatchedCheck} {period : Int}
    (hf : env.polls checkid = some f) (hg : 0 < f.transientPeriodGranularity) (hm : 0 < f.transientMinPeriod)
    (hp : 0 < period) :
    env.boundedPeriod checkid period = some (max f.transientMinPeriod (500 * (period / 500))) := by
  have hgran : env.granularityPi checkid = 500 := by
    rw [granularityPi, hf]
    exact if_neg hg.not_gt
  have hmin : env.minimumPi checkid = f.transientMinPeriod := by
    rw [minimumPi, hf]
    exact if_pos hm
  rw [boundedPeriod, hgran, hmin, if_neg (by decide), Int.tdiv_eq_ediv_of_nonneg hp.le, max_comm, mul_comm]

/-- The period of a watch is quantized exactly when no granularity of 0 is configured for a check that is
not registered, and for a registered one that is given back rounding to 500 ms, as the code does, gives what
its own granularity does. -/
theorem check_watch_iff (env : WatchEnv) (s : Watches) (checkid : Uuid) (period : Int) (hp : 0 < period) :
    s.Quantized env checkid period ↔
      (env.polls checkid = none → env.configuredGranularity checkid ≠ some 0) ∧
      ∀ f, env.polls checkid = some f → 0 < f.transientPeriodGranularity → 0 < f.transientMinPeriod →
        (s.find checkid (max f.transientMinPeriod (500 * (period / 500)))).isSome ∨ f.oncheck = false →
        max f.transientMinPeriod (500 * (period / 500)) =
          max f.transientMinPeriod (f.transientPeriodGranularity *
            (period / f.transientPeriodGranularity)) := by
  have hdivides : env.boundedPeriod checkid period ≠ none ↔
      (env.polls checkid = none → env.configuredGranularity checkid ≠ some 0) := by
    rw [WatchEnv.boundedPeriod, ← not_and, ← WatchEnv.granularityPi_eq_zero_iff]
    split_ifs with hzero <;> simp [hzero]
  constructor
  · intro h
    refine ⟨hdivides.mp h.divides, fun f hf hg hm hback => ?_⟩
    have hb := WatchEnv.boundedPeriod_registered hf hg hm hp
    obtain ⟨w, t, hw⟩ := (Watches.noitCheckWatch_some hp.ne' hf hb).mpr hback
    rw [← h.rounded f w t hf hg hm hw]
    exact Option.some.inj (hb.symm.trans (Watches.noitCheckWatch_eq hp.ne' hw).1)
  · rintro ⟨hgran, hperiod⟩
    refine ⟨hdivides.mpr hgran, fun f w t hf hg hm hw => ?_,
      fun w t requests u env' period' hw hrun hp' hb => ?_⟩
    · have hb := WatchEnv.boundedPeriod_registered hf hg hm hp
      rw [← hperiod f hf hg hm ((Watches.noitCheckWatch_some hp.ne' hf hb).mp ⟨w, t, hw⟩)]
      exact Option.some.inj ((Watches.noitCheckWatch_eq hp.ne' hw).1.symm.trans hb)
    · have hfind := Watches.find_of_requests (Watches.noitCheckWatch_eq hp.ne' hw).2.2 hrun
      exact Watches.noitCheckWatch_found hp'.ne' hb hfind

def WatchEnv.single (minPeriod granularity : Int) : WatchEnv where
  polls := fun checkid => if checkid = Uuid.zero then some ⟨1, 60000, minPeriod, granularity, false⟩ else none
  checks := ⟨none, some 0⟩
  lmdb := none
  node := fun _ => ⟨none, none⟩

theorem check_watch_at_500 : (0 : Int) < 2700 ∧ (⟨[], 2⟩ : Watches).Quantized
    (.single 1000 500) Uuid.zero 2700 := by
  refine ⟨by decide, (check_watch_iff _ _ _ _ (by decide)).mpr ⟨fun h => ?_, fun f hf _ _ _ => ?_⟩⟩
  · cases h
  · obtain rfl := Option.some.inj hf
    rfl

theorem check_watch_ignores_granularity :
    Watches.noitCheckWatch (.single 1000 2000) ⟨[], 2⟩ Uuid.zero 2500 =
      some (some ⟨2, Uuid.zero, 2500⟩, ⟨[⟨2, Uuid.zero, 2500⟩], 3⟩) ∧
    max (1000 : Int) (2000 * (2500 / 2000)) = 2000 ∧
    WatchEnv.boundedPeriod (.single 1000 2000) (List.Vector.replicate 16 1) 2500 = none := by
  decide

end Reconnoiter
