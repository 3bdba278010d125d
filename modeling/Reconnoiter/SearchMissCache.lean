import Reconnoiter.DirectorSearch

/-! Soundness of the search-miss cache. A cached key tells of an account
generation: no search whose registration had ended by then, and that is still
registered, is true on the message of the key. -/

namespace Reconnoiter

structure Applies {n : Nat} {α : Type} (r : Search n α) (m : MetricId) : Prop where
  account : r.accountId = m.accountId
  check : r.checkUuid = m.id ∨ r.checkUuid = Uuid.zero
  name : r.metricName = m.bareName ∨ r.metricName = []

def MissKey.message (nameLen : Bytes → Nat) (key : MissKey) : MetricId :=
  ⟨key.accountId, key.checkUuid, key.metricName, nameLen key.metricName⟩

section

variable {n : Nat} {α : Type} (eval : α → MetricId → Bool)

def Known (s : Director n α) (m : MetricId) (g : Nat) (P : Search n α → Prop) : Prop :=
  ∀ r ∈ s.registered, ∀ e, s.ended r.astId = some e → e ≤ g → Applies r m →
    eval r.ast m = true → P r

def KeySound (nameLen : Bytes → Nat) (s : Director n α) (key : MissKey) : Prop :=
  key.accountGen ≤ s.gen key.accountId ∧
    Known eval s (key.message nameLen) key.accountGen fun _ => False

def Item.Leads (item : Item n) (r : Search n α) : Prop :=
  match item with
  | .findCheck uuid => r.checkUuid = uuid
  | .findNames uuid left found =>
    r.checkUuid = uuid ∧ (r.metricName ∈ left ∨ r.metricName ∈ found)
  | .visit uuid name lane => r.checkUuid = uuid ∧ r.metricName = name ∧ r.lane = lane

def Covers (agenda : List (Item n)) (r : Search n α) : Prop := ∃ item ∈ agenda, item.Leads r

def PhaseInv (nameLen : Bytes → Nat) (s : Director n α) (d : Distribution n) : Prop :=
  match d.phase with
  | .lookupCheckGen g => g ≤ s.gen d.message.accountId
  | .lookup key => key.accountGen ≤ s.gen d.message.accountId
  | .evaluate g agenda _ => g ≤ s.gen d.message.accountId ∧
      Known eval s d.message g fun r => d.interests r.lane ≠ 0 ∨ Covers agenda r
  | .storeAccountGen g => g ≤ s.gen d.message.accountId ∧
      Known eval s d.message g fun r => d.interests r.lane ≠ 0
  | .storeCheckGen g => g ≤ s.gen d.message.accountId ∧ Known eval s d.message g fun _ => False
  | .store key => KeySound eval nameLen s key
  | _ => True

structure Director.WF (s : Director n α) : Prop where
  tables : ∀ r ∈ s.registered, r.accountId ∈ s.accounts ∧ (r.accountId, r.checkUuid) ∈ s.checks ∧
    (r.accountId, r.checkUuid, r.metricName) ∈ s.names
  fresh : ∀ r ∈ s.registered, r.astId < s.astCounter
  ended_fresh : ∀ id e, s.ended id = some e → id < s.astCounter
  ended_gen : ∀ r ∈ s.registered, ∀ e, s.ended r.astId = some e → e ≤ s.gen r.accountId
  registering : ∀ id r phase, s.registering id = some (r, phase) →
    r.astId = id ∧ id < s.astCounter ∧ s.ended id = none ∧
    (∀ r' ∈ s.registered, r'.astId = id → r' = r) ∧
    (phase ≠ .account → r.accountId ∈ s.accounts) ∧
    (phase ≠ .account → phase ≠ .check → (r.accountId, r.checkUuid) ∈ s.checks) ∧
    (phase = .put ∨ phase = .bump → (r.accountId, r.checkUuid, r.metricName) ∈ s.names)

structure Later (s s' : Director n α) : Prop where
  gen : ∀ a, s.gen a ≤ s'.gen a
  known : ∀ r ∈ s'.registered, ∀ e, s'.ended r.astId = some e → e ≤ s.gen r.accountId →
    r ∈ s.registered ∧ s.ended r.astId = some e

variable {eval} {nameLen : Bytes → Nat} {s s' : Director n α} {m : MetricId} {g : Nat}

theorem Later.of_eq (hgen : s'.gen = s.gen) (hreg : s'.registered = s.registered)
    (hended : s'.ended = s.ended) : Later s s' where
  gen a := by rw [hgen]
  known r hr e he _ := ⟨hreg ▸ hr, hended ▸ he⟩

theorem Known.later {P : Search n α → Prop} (h : Known eval s m g P) (hl : Later s s')
    (hg : g ≤ s.gen m.accountId) : Known eval s' m g P := by
  intro r hr e he hle happ hev
  have hle' : e ≤ s.gen r.accountId := by
    rw [happ.account]
    omega
  obtain ⟨hr', he'⟩ := hl.known r hr e he hle'
  exact h r hr' e he' hle happ hev

theorem KeySound.later {key : MissKey} (h : KeySound eval nameLen s key) (hl : Later s s') :
    KeySound eval nameLen s' key :=
  ⟨h.1.trans (hl.gen _), h.2.later hl h.1⟩

theorem PhaseInv.later {d : Distribution n} (h : PhaseInv eval nameLen s d) (hl : Later s s') :
    PhaseInv eval nameLen s' d := by
  unfold PhaseInv at h ⊢
  cases hp : d.phase with
  | lookupCheckGen g => rw [hp] at h; exact h.trans (hl.gen _)
  | lookup key => rw [hp] at h; exact h.trans (hl.gen _)
  | evaluate g agenda si => rw [hp] at h; exact ⟨h.1.trans (hl.gen _), h.2.later hl h.1⟩
  | storeAccountGen g => rw [hp] at h; exact ⟨h.1.trans (hl.gen _), h.2.later hl h.1⟩
  | storeCheckGen g => rw [hp] at h; exact ⟨h.1.trans (hl.gen _), h.2.later hl h.1⟩
  | store key => rw [hp] at h; exact KeySound.later h hl
  | _ => trivial

end

section

variable {n : Nat} {α : Type} {s s' : Director n α}

theorem wf_start : (Director.start n α).WF where
  tables := by simp [Director.start]
  fresh := by simp [Director.start]
  ended_fresh := by simp [Director.start]
  ended_gen := by simp [Director.start]
  registering := by simp [Director.start]

theorem wf_register (h : s.WF) (search : Search n α) (hid : search.astId = s.astCounter) :
    ({ s with
      astCounter := s.astCounter + 1
      registering := Function.update s.registering s.astCounter (some (search, .account)) } :
        Director n α).WF where
  tables := h.tables
  fresh r hr := Nat.lt_succ_of_lt (h.fresh r hr)
  ended_fresh id e he := Nat.lt_succ_of_lt (h.ended_fresh id e he)
  ended_gen := h.ended_gen
  registering id r phase hr := by
    by_cases hc : id = s.astCounter
    · subst hc
      simp only [Function.update_self, Option.some.injEq, Prod.mk.injEq] at hr
      obtain ⟨rfl, rfl⟩ := hr
      refine ⟨hid, Nat.lt_succ_self _, ?_, fun r' hr' he => ?_, by simp, by simp, by simp⟩
      · cases hn : s.ended s.astCounter with
        | none => rfl
        | some e => exact absurd (h.ended_fresh _ e hn) (lt_irrefl _)
      · exact absurd (he ▸ h.fresh r' hr') (lt_irrefl _)
    · simp only [Function.update_of_ne hc] at hr
      obtain ⟨h1, h2, hrest⟩ := h.registering id r phase hr
      exact ⟨h1, Nat.lt_succ_of_lt h2, hrest⟩

theorem wf_move (h : s.WF) {accounts : List Nat} {checks : List (Nat × Uuid)}
    {names : List (Nat × Uuid × Bytes)} {id : Nat} {search : Search n α} {phase phase' : RegPhase}
    (hr : s.registering id = some (search, phase))
    (ha : s.accounts ⊆ accounts) (hc : s.checks ⊆ checks) (hn : s.names ⊆ names)
    (hacc : phase' ≠ .account → search.accountId ∈ accounts)
    (hchk : phase' ≠ .account → phase' ≠ .check → (search.accountId, search.checkUuid) ∈ checks)
    (hnam : phase' = .put ∨ phase' = .bump →
      (search.accountId, search.checkUuid, search.metricName) ∈ names) :
    ({ s with
      accounts := accounts
      checks := checks
      names := names
      registering := Function.update s.registering id (some (search, phase')) } : Director n α).WF where
  tables r hr := ⟨ha (h.tables r hr).1, hc (h.tables r hr).2.1, hn (h.tables r hr).2.2⟩
  fresh := h.fresh
  ended_fresh := h.ended_fresh
  ended_gen := h.ended_gen
  registering id' r phase'' hr' := by
    by_cases hid : id' = id
    · subst hid
      simp only [Function.update_self, Option.some.injEq, Prod.mk.injEq] at hr'
      obtain ⟨rfl, rfl⟩ := hr'
      obtain ⟨h1, h2, h3, h4, _⟩ := h.registering _ _ _ hr
      exact ⟨h1, h2, h3, h4, hacc, hchk, hnam⟩
    · simp only [Function.update_of_ne hid] at hr'
      obtain ⟨h1, h2, h3, h4, h5, h6, h7⟩ := h.registering _ _ _ hr'
      exact ⟨h1, h2, h3, h4, fun hp => ha (h5 hp), fun hp hq => hc (h6 hp hq), fun hp => hn (h7 hp)⟩

theorem wf_put (h : s.WF) {id : Nat} {search : Search n α}
    (hr : s.registering id = some (search, .put)) :
    ({ s with
      registered := search :: s.registered
      registering := Function.update s.registering id (some (search, .bump)) } : Director n α).WF := by
  obtain ⟨h1, h2, h3, h4, h5, h6, h7⟩ := h.registering _ _ _ hr
  refine ⟨fun r hr => ?_, fun r hr => ?_, h.ended_fresh, fun r hr e he => ?_, fun id' r phase hr' => ?_⟩
  · rcases List.mem_cons.mp hr with rfl | hr
    · exact ⟨h5 (by simp), h6 (by simp) (by simp), h7 (Or.inl rfl)⟩
    · exact h.tables r hr
  · rcases List.mem_cons.mp hr with rfl | hr
    · exact h1 ▸ h2
    · exact h.fresh r hr
  · rcases List.mem_cons.mp hr with rfl | hr
    · simp only [h1, h3] at he
      exact absurd he (by simp)
    · exact h.ended_gen r hr e he
  · by_cases hid : id' = id
    · subst hid
      simp only [Function.update_self, Option.some.injEq, Prod.mk.injEq] at hr'
      obtain ⟨rfl, rfl⟩ := hr'
      refine ⟨h1, h2, h3, fun r' hr' he => ?_, fun _ => h5 (by simp), fun _ _ => h6 (by simp) (by simp),
        fun _ => h7 (Or.inl rfl)⟩
      rcases List.mem_cons.mp hr' with rfl | hr'
      · rfl
      · exact h4 r' hr' he
    · simp only [Function.update_of_ne hid] at hr'
      obtain ⟨g1, g2, g3, g4, hrest⟩ := h.registering _ _ _ hr'
      refine ⟨g1, g2, g3, fun r' hm he => ?_, hrest⟩
      rcases List.mem_cons.mp hm with rfl | hm
      · exact absurd (he.symm.trans h1) hid
      · exact g4 r' hm he

theorem wf_bump (h : s.WF) {id : Nat} {search : Search n α}
    (hr : s.registering id = some (search, .bump)) :
    ({ s with
      gen := Function.update s.gen search.accountId (s.gen search.accountId + 1)
      ended := Function.update s.ended id (some (s.gen search.accountId + 1))
      registering := Function.update s.registering id none } : Director n α).WF := by
  obtain ⟨h1, h2, h3, h4, h5, h6, h7⟩ := h.registering _ _ _ hr
  refine ⟨h.tables, h.fresh, fun id' e he => ?_, fun r hr e he => ?_, fun id' r phase hr' => ?_⟩
  · by_cases hid : id' = id
    · exact hid ▸ h2
    · simp only [Function.update_of_ne hid] at he
      exact h.ended_fresh id' e he
  · by_cases hid : r.astId = id
    · obtain rfl := h4 r hr hid
      simp only [hid, Function.update_self, Option.some.injEq] at he ⊢
      omega
    · simp only [Function.update_of_ne hid] at he
      have hle := h.ended_gen r hr e he
      by_cases ha : r.accountId = search.accountId
      · simp only [ha, Function.update_self] at hle ⊢
        omega
      · simpa only [Function.update_of_ne ha] using hle
  · by_cases hid : id' = id
    · simp [hid] at hr'
    · simp only [Function.update_of_ne hid] at hr' ⊢
      exact h.registering id' r phase hr'

theorem later_bump (h : s.WF) {id : Nat} {search : Search n α}
    (hr : s.registering id = some (search, .bump)) :
    Later s { s with
      gen := Function.update s.gen search.accountId (s.gen search.accountId + 1)
      ended := Function.update s.ended id (some (s.gen search.accountId + 1))
      registering := Function.update s.registering id none } where
  gen a := by
    by_cases ha : a = search.accountId
    · simp [ha]
    · simp [Function.update_of_ne ha]
  known r hrm e he hle := by
    obtain ⟨_, _, _, h4, _⟩ := h.registering _ _ _ hr
    by_cases hid : r.astId = id
    · obtain rfl := h4 r hrm hid
      simp only [hid, Function.update_self, Option.some.injEq] at he
      omega
    · simp only [Function.update_of_ne hid] at he
      exact ⟨hrm, he⟩

theorem later_put (h : s.WF) {id : Nat} {search : Search n α}
    (hr : s.registering id = some (search, .put)) :
    Later s { s with
      registered := search :: s.registered
      registering := Function.update s.registering id (some (search, .bump)) } where
  gen a := le_refl _
  known r hrm e he _ := by
    obtain ⟨h1, _, h3, _⟩ := h.registering _ _ _ hr
    rcases List.mem_cons.mp hrm with rfl | hm
    · simp only [h1, h3] at he
      exact absurd he (by simp)
    · exact ⟨hm, he⟩

structure Kept (s s' : Director n α) : Prop where
  cache : s'.cache = s.cache
  distributing : s'.distributing = s.distributing
  registered : ∀ r ∈ s.registered, r ∈ s'.registered
  ended : ∀ id e, s.ended id = some e → s'.ended id = some e

theorem registerStep_wf {id : Nat} (h : s.WF) (hs : registerStep s id = some s') :
    s'.WF ∧ Later s s' ∧ Kept s s' := by
  unfold registerStep at hs
  cases hr : s.registering id with
  | none => simp [hr] at hs
  | some entry =>
    obtain ⟨search, phase⟩ := entry
    obtain ⟨h1, h2, h3, h4, h5, h6, h7⟩ := h.registering _ _ _ hr
    have hkept : ∀ t : Director n α, t.cache = s.cache → t.distributing = s.distributing →
        t.registered = s.registered → t.ended = s.ended → Kept s t :=
      fun t hc hd hg he => ⟨hc, hd, fun r hr => hg ▸ hr, fun id e hid => he ▸ hid⟩
    cases phase with
    | account =>
      simp only [hr, Option.some.injEq] at hs
      subst hs
      exact ⟨wf_move h hr (List.subset_cons_self _ _) (List.Subset.refl _) (List.Subset.refl _)
        (by simp) (by simp) (by simp), Later.of_eq rfl rfl rfl, hkept _ rfl rfl rfl rfl⟩
    | check =>
      simp only [hr, Option.some.injEq] at hs
      subst hs
      exact ⟨wf_move h hr (List.Subset.refl _) (List.subset_cons_self _ _) (List.Subset.refl _)
        (fun _ => h5 (by simp)) (by simp) (by simp), Later.of_eq rfl rfl rfl, hkept _ rfl rfl rfl rfl⟩
    | name =>
      simp only [hr, Option.some.injEq] at hs
      subst hs
      exact ⟨wf_move h hr (List.Subset.refl _) (List.Subset.refl _) (List.subset_cons_self _ _)
        (fun _ => h5 (by simp)) (fun _ _ => h6 (by simp) (by simp)) (by simp),
        Later.of_eq rfl rfl rfl, hkept _ rfl rfl rfl rfl⟩
    | put =>
      simp only [hr, Option.some.injEq] at hs
      subst hs
      exact ⟨wf_put h hr, later_put h hr, rfl, rfl, fun r hr => List.mem_cons_of_mem _ hr, fun _ _ he => he⟩
    | bump =>
      simp only [hr, Option.some.injEq] at hs
      subst hs
      refine ⟨wf_bump h hr, later_bump h hr, rfl, rfl, fun r hr => hr, fun id' e he => ?_⟩
      have hne : id' ≠ id := by
        rintro rfl
        rw [h3] at he
        exact absurd he (by simp)
      simpa only [Function.update_of_ne hne] using he

theorem wf_filter (h : s.WF) (p : Search n α → Bool) :
    ({ s with registered := s.registered.filter p } : Director n α).WF where
  tables r hr := h.tables r (List.mem_of_mem_filter hr)
  fresh r hr := h.fresh r (List.mem_of_mem_filter hr)
  ended_fresh := h.ended_fresh
  ended_gen r hr := h.ended_gen r (List.mem_of_mem_filter hr)
  registering id r phase hr := by
    obtain ⟨h1, h2, h3, h4, hrest⟩ := h.registering id r phase hr
    exact ⟨h1, h2, h3, fun r' hr' => h4 r' (List.mem_of_mem_filter hr'), hrest⟩

theorem later_filter (s : Director n α) (p : Search n α → Bool) :
    Later s { s with registered := s.registered.filter p } :=
  ⟨fun _ => le_refl _, fun _ hr _ he _ => ⟨List.mem_of_mem_filter hr, he⟩⟩

end

section

variable {n : Nat} {α : Type} {eval : α → MetricId → Bool} {nameLen : Bytes → Nat}
  {s : Director n α} {d : Distribution n} {r : Search n α}

theorem covers_initialAgenda {m : MetricId} (h : Applies r m) : Covers (initialAgenda m) r := by
  rcases h.check with hc | hc
  · exact ⟨.findCheck m.id, by simp [initialAgenda], hc⟩
  · exact ⟨.findCheck Uuid.zero, by simp [initialAgenda], hc⟩

theorem interests_evaluateItem (si : Bool) (item : Item n) (rest : List (Item n)) {lane : Fin n}
    (h : d.interests lane ≠ 0) : (evaluateItem eval s d si item rest).1.interests lane ≠ 0 := by
  cases item with
  | findCheck uuid =>
    simp only [evaluateItem]
    split_ifs <;> exact h
  | findNames uuid left found => cases left <;> exact h
  | visit uuid name lane' =>
    simp only [evaluateItem]
    split_ifs with hi hb
    · exact h
    · by_cases hl : lane = lane'
      · subst hl
        simp only [Function.update_self]
        decide
      · simp only [Function.update_of_ne hl]
        exact h
    · exact h

theorem message_evaluateItem (si : Bool) (item : Item n) (rest : List (Item n)) :
    (evaluateItem eval s d si item rest).1.message = d.message := by
  cases item with
  | findCheck uuid =>
    simp only [evaluateItem]
    split_ifs <;> rfl
  | findNames uuid left found => cases left <;> rfl
  | visit uuid name lane =>
    simp only [evaluateItem]
    split_ifs <;> rfl

theorem covers_evaluateItem (hwf : s.WF) (hr : r ∈ s.registered) (happ : Applies r d.message)
    (hev : eval r.ast d.message = true) (si : Bool) (item : Item n) (rest : List (Item n))
    (h : Covers (item :: rest) r) :
    (evaluateItem eval s d si item rest).1.interests r.lane ≠ 0 ∨
      Covers (evaluateItem eval s d si item rest).2.1 r := by
  obtain ⟨hacc, hchk, hnam⟩ := hwf.tables r hr
  rw [happ.account] at hchk hnam
  obtain ⟨first, hfirst, hl⟩ := h
  rcases List.mem_cons.mp hfirst with rfl | hmem
  · cases first with
    | findCheck uuid =>
      have hu : r.checkUuid = uuid := hl
      subst hu
      right
      simp only [evaluateItem, if_pos hchk]
      refine ⟨.findNames r.checkUuid [d.message.bareName, []] [], by simp, rfl, Or.inl ?_⟩
      rcases happ.name with hn | hn <;> simp [hn]
    | findNames uuid left found =>
      obtain ⟨hu, hn⟩ : r.checkUuid = uuid ∧ (r.metricName ∈ left ∨ r.metricName ∈ found) := hl
      subst hu
      right
      cases left with
      | cons name left =>
        refine ⟨_, List.mem_cons_self, rfl, ?_⟩
        rcases hn with hn | hn
        · rcases List.mem_cons.mp hn with rfl | hn
          · exact Or.inr (by simp [hnam])
          · exact Or.inl hn
        · right
          split_ifs
          · simp [hn]
          · exact hn
      | nil =>
        have hf : r.metricName ∈ found := by simpa using hn
        refine ⟨.visit r.checkUuid r.metricName r.lane, ?_, rfl, rfl, rfl⟩
        simp only [evaluateItem, List.mem_append, List.mem_flatMap, List.mem_map]
        exact Or.inl ⟨r.metricName, hf, r.lane, List.mem_finRange _, rfl⟩
    | visit uuid name lane =>
      obtain ⟨hu, hn, hlane⟩ : r.checkUuid = uuid ∧ r.metricName = name ∧ r.lane = lane := hl
      subst hu hn hlane
      left
      simp only [evaluateItem]
      have hany : (s.registered.filter fun r' => r'.accountId = d.message.accountId ∧
          r'.checkUuid = r.checkUuid ∧ r'.metricName = r.metricName ∧ r'.lane = r.lane).any
          (fun r' => eval r'.ast d.message) = true := by
        rw [List.any_eq_true]
        exact ⟨r, List.mem_filter.mpr ⟨hr, by simp [happ.account]⟩, hev⟩
      split_ifs with hi
      · exact hi
      · simp only [Function.update_self]
        decide
  · right
    refine ⟨first, ?_, hl⟩
    unfold evaluateItem
    split
    · split_ifs <;> simp [hmem]
    · simp [hmem]
    · simp [hmem]
    · simp only
      split_ifs <;> exact hmem

/-- When the key of a miss is made a second time, to be stored: the account has
not gained a search since the lookup, and no lane that was left out because of
its exact interest has a search that is true on the message. -/
def StoreOk (eval : α → MetricId → Bool) (s : Director n α) (d : Distribution n) : Prop :=
  match d.phase with
  | .storeAccountGen g => s.gen d.message.accountId = g ∧
      ∀ r ∈ s.registered, s.ended r.astId ≠ none → Applies r d.message → d.interests r.lane ≠ 0 →
        eval r.ast d.message = false
  | _ => True

theorem message_advance : (advance eval s d).message = d.message := by
  obtain ⟨m, interests, has, phase⟩ := d
  cases phase with
  | exact left => cases left <;> rfl
  | account =>
    simp only [advance]
    split_ifs <;> rfl
  | lookupAccountGen =>
    simp only [advance]
    split_ifs <;> rfl
  | lookup key =>
    simp only [advance]
    split_ifs <;> rfl
  | evaluate g agenda si =>
    cases agenda with
    | nil =>
      simp only [advance]
      split_ifs <;> rfl
    | cons item rest => exact message_evaluateItem si item rest
  | _ => rfl

theorem phaseInv_advance (hwf : s.WF) (hlen : d.message.nameLen = nameLen d.message.name)
    (h : PhaseInv eval nameLen s d) (hok : StoreOk eval s d) :
    PhaseInv eval nameLen s (advance eval s d) := by
  obtain ⟨m, interests, has, phase⟩ := d
  cases phase with
  | exact left => cases left <;> trivial
  | account =>
    simp only [advance]
    split_ifs <;> trivial
  | lookupAccountGen =>
    simp only [advance]
    split_ifs
    · exact le_refl _
    · exact ⟨le_refl _, fun r _ e _ _ happ _ => Or.inr (covers_initialAgenda happ)⟩
  | lookupCheckGen g => exact h
  | lookup key =>
    simp only [advance]
    split_ifs
    · trivial
    · exact ⟨h, fun r _ e _ _ happ _ => Or.inr (covers_initialAgenda happ)⟩
  | evaluate g agenda si =>
    obtain ⟨hg, hk⟩ := h
    cases agenda with
    | nil =>
      simp only [advance]
      split_ifs
      · trivial
      · refine ⟨hg, fun r hr e he hle happ hev => (hk r hr e he hle happ hev).resolve_right ?_⟩
        rintro ⟨item, hi, _⟩
        exact absurd hi (by simp)
    | cons item rest =>
      refine ⟨?_, fun r hr e he hle happ hev => ?_⟩
      · rw [message_advance]
        exact hg
      · rw [message_advance] at happ hev
        rcases hk r hr e he hle happ hev with hi | hc
        · exact Or.inl (interests_evaluateItem si item rest hi)
        · exact covers_evaluateItem hwf hr happ hev si item rest hc
  | storeAccountGen g =>
    obtain ⟨hg, hk⟩ := h
    obtain ⟨hgen, hskip⟩ := hok
    refine ⟨le_refl _, fun r hr e he hle happ hev => ?_⟩
    have hi := hk r hr e he (hle.trans_eq hgen) happ hev
    have hf := hskip r hr (by simp [he]) happ hi
    exact absurd (hev.symm.trans hf) (by simp)
  | storeCheckGen g =>
    obtain ⟨hg, hk⟩ := h
    have hm : MissKey.message nameLen ⟨m.accountId, g, m.id, s.checkGen m.id, m.name⟩ = m := by
      simp only [MissKey.message, ← hlen]
    refine ⟨hg, ?_⟩
    rw [hm]
    exact hk
  | store key => trivial
  | deliver => trivial

/-- The search `r`, registered by generation `e`, is not missed by the call. -/
def Served (r : Search n α) (e : Nat) (d : Distribution n) : Prop :=
  match d.phase with
  | .lookupCheckGen g => e ≤ g
  | .lookup key => e ≤ key.accountGen ∧
      (key.accountId, key.checkUuid, key.metricName) = (d.message.accountId, d.message.id, d.message.name)
  | .evaluate _ agenda _ => d.interests r.lane ≠ 0 ∨ Covers agenda r
  | .exact _ | .account | .lookupAccountGen => True
  | _ => d.interests r.lane ≠ 0

theorem served_advance {e : Nat} (hwf : s.WF) (hcache : ∀ key ∈ s.cache, KeySound eval nameLen s key)
    (hlen : d.message.nameLen = nameLen d.message.name) (hr : r ∈ s.registered)
    (he : s.ended r.astId = some e) (happ : Applies r d.message) (hev : eval r.ast d.message = true)
    (h : Served r e d) : Served r e (advance eval s d) := by
  have hacc := (hwf.tables r hr).1
  have hgen := hwf.ended_gen r hr e he
  rw [happ.account] at hacc hgen
  obtain ⟨m, interests, has, phase⟩ := d
  cases phase with
  | exact left => cases left <;> trivial
  | account =>
    simp only [advance]
    rw [if_pos hacc]
    trivial
  | lookupAccountGen =>
    simp only [advance]
    split_ifs
    · exact hgen
    · exact Or.inr (covers_initialAgenda happ)
  | lookupCheckGen g => exact ⟨h, rfl⟩
  | lookup key =>
    obtain ⟨hle, hkey⟩ := h
    simp only [Prod.mk.injEq] at hkey
    have hm : key.message nameLen = m := by
      simp only [MissKey.message, hkey.1, hkey.2.1, hkey.2.2, ← hlen]
    simp only [advance]
    split_ifs with hin
    · have hk := (hcache key hin).2
      rw [hm] at hk
      exact absurd (hk r hr e he hle happ hev) id
    · exact Or.inr (covers_initialAgenda happ)
  | evaluate g agenda si =>
    cases agenda with
    | nil =>
      have hi : interests r.lane ≠ 0 := by
        refine h.resolve_right ?_
        rintro ⟨item, hi, _⟩
        exact absurd hi (by simp)
      simp only [advance]
      split_ifs <;> exact hi
    | cons item rest =>
      rcases h with hi | hc
      · exact Or.inl (interests_evaluateItem si item rest hi)
      · exact covers_evaluateItem hwf hr happ hev si item rest hc
  | storeAccountGen g => exact h
  | storeCheckGen g => exact h
  | store key => exact h
  | deliver => exact h

end

section

variable {n : Nat} {α : Type} {eval : α → MetricId → Bool} {nameLen : Bytes → Nat}
  {s s' : Director n α}

def SearchStepOk (eval : α → MetricId → Bool) (s : Director n α) : DirectorAct n α → Prop
  | .distributeStep call _ => ∀ d, s.distributing call = some d → StoreOk eval s d
  | _ => True

structure CallInv (eval : α → MetricId → Bool) (nameLen : Bytes → Nat) (s : Director n α)
    (d : Distribution n) : Prop where
  phase : PhaseInv eval nameLen s d
  has : ∀ lane, d.interests lane ≠ 0 → d.hasInterests ≠ 0
  len : d.message.nameLen = nameLen d.message.name

structure Director.Inv (eval : α → MetricId → Bool) (nameLen : Bytes → Nat) (s : Director n α) :
    Prop where
  wf : s.WF
  cache : ∀ key ∈ s.cache, KeySound eval nameLen s key
  calls : ∀ call d, s.distributing call = some d → CallInv eval nameLen s d

theorem has_advance {d : Distribution n} (h : ∀ lane, d.interests lane ≠ 0 → d.hasInterests ≠ 0)
    (lane : Fin n) (hl : (advance eval s d).interests lane ≠ 0) :
    (advance eval s d).hasInterests ≠ 0 := by
  obtain ⟨m, interests, has, phase⟩ := d
  cases phase with
  | exact left =>
    cases left with
    | nil => exact h lane hl
    | cons form left => exact takeEntry_has h lane hl
  | account =>
    simp only [advance] at hl ⊢
    split_ifs at hl ⊢ <;> exact h lane hl
  | lookupAccountGen =>
    simp only [advance] at hl ⊢
    split_ifs at hl ⊢ <;> exact h lane hl
  | lookup key =>
    simp only [advance] at hl ⊢
    split_ifs at hl ⊢ <;> exact h lane hl
  | evaluate g agenda si =>
    cases agenda with
    | nil =>
      simp only [advance] at hl ⊢
      split_ifs at hl ⊢ <;> exact h lane hl
    | cons item rest =>
      cases item with
      | findCheck uuid =>
        simp only [advance, evaluateItem] at hl ⊢
        split_ifs at hl ⊢ <;> exact h lane hl
      | findNames uuid left found => cases left <;> exact h lane hl
      | visit uuid name lane' =>
        simp only [advance, evaluateItem] at hl ⊢
        split_ifs at hl ⊢
        · exact h lane hl
        · exact (by decide : (1 : UInt16) ≠ 0)
        · exact h lane hl
  | lookupCheckGen g => exact h lane hl
  | storeAccountGen g => exact h lane hl
  | storeCheckGen g => exact h lane hl
  | store key => exact h lane hl
  | deliver => exact h lane hl

theorem CallInv.later {d : Distribution n} (h : CallInv eval nameLen s d) (hl : Later s s') :
    CallInv eval nameLen s' d :=
  ⟨h.phase.later hl, h.has, h.len⟩

theorem CallInv.advance {d : Distribution n} (hwf : s.WF) (h : CallInv eval nameLen s d)
    (hok : StoreOk eval s d) : CallInv eval nameLen s (advance eval s d) :=
  ⟨phaseInv_advance hwf h.len h.phase hok, has_advance h.has, by rw [message_advance]; exact h.len⟩

theorem Director.Inv.later (h : s.Inv eval nameLen) (hwf : s'.WF) (hl : Later s s')
    (hcache : s'.cache = s.cache) (hcalls : s'.distributing = s.distributing) :
    s'.Inv eval nameLen where
  wf := hwf
  cache key hk := (h.cache key (hcache ▸ hk)).later hl
  calls call d hd := (h.calls call d (hcalls ▸ hd)).later hl

theorem Director.WF.set (h : s.WF) (call : Nat) (d : Distribution n) : (s.set call d).WF :=
  ⟨h.tables, h.fresh, h.ended_fresh, h.ended_gen, h.registering⟩

theorem Director.Inv.set (h : s.Inv eval nameLen) (call : Nat) {d : Distribution n}
    (hd : CallInv eval nameLen s d) : (s.set call d).Inv eval nameLen where
  wf := h.wf.set call d
  cache key hk := (h.cache key hk).later (Later.of_eq rfl rfl rfl)
  calls call' d' hd' := by
    by_cases hc : call' = call
    · subst hc
      simp only [Director.set, Function.update_self, Option.some.injEq] at hd'
      exact hd' ▸ hd.later (Later.of_eq rfl rfl rfl)
    · simp only [Director.set, Function.update_of_ne hc] at hd'
      exact (h.calls call' d' hd').later (Later.of_eq rfl rfl rfl)

theorem inv_distributeStep {call : Nat} {keep : MissKey → Bool} (h : s.Inv eval nameLen)
    (hok : ∀ d, s.distributing call = some d → StoreOk eval s d)
    (hs : distributeStep eval s call keep = some s') : s'.Inv eval nameLen ∧ Later s s' := by
  unfold distributeStep at hs
  cases hd : s.distributing call with
  | none => simp [hd] at hs
  | some d =>
    have hcall := h.calls call d hd
    have hset := h.set call (hcall.advance h.wf (hok d hd))
    rw [hd] at hs
    simp only at hs
    split at hs
    · rename_i key hp
      obtain rfl := Option.some.inj hs
      refine ⟨⟨⟨h.wf.tables, h.wf.fresh, h.wf.ended_fresh, h.wf.ended_gen, h.wf.registering⟩,
        fun k hk => ?_, fun call' d' hd' => ?_⟩, Later.of_eq rfl rfl rfl⟩
      · rcases List.mem_cons.mp (List.mem_of_mem_filter hk) with rfl | hk
        · have hks := hcall.phase
          rw [PhaseInv, hp] at hks
          exact KeySound.later hks (Later.of_eq rfl rfl rfl)
        · exact (h.cache k hk).later (Later.of_eq rfl rfl rfl)
      · exact (hset.calls call' d' hd').later (Later.of_eq rfl rfl rfl)
    · obtain rfl := Option.some.inj hs
      refine ⟨⟨⟨h.wf.tables, h.wf.fresh, h.wf.ended_fresh, h.wf.ended_gen, h.wf.registering⟩,
        fun k hk => (h.cache k hk).later (Later.of_eq rfl rfl rfl), fun call' d' hd' => ?_⟩,
        Later.of_eq rfl rfl rfl⟩
      by_cases hc : call' = call
      · simp [hc] at hd'
      · simp only [Function.update_of_ne hc] at hd'
        exact (h.calls call' d' hd').later (Later.of_eq rfl rfl rfl)
    · obtain rfl := Option.some.inj hs
      exact ⟨hset, Later.of_eq rfl rfl rfl⟩

theorem inv_step [NeZero n] {act : DirectorAct n α} (h : s.Inv eval nameLen)
    (hok : SearchStepOk eval s act) (hs : directorStep eval nameLen s act = some s') :
    s'.Inv eval nameLen ∧ Later s s' := by
  cases act with
  | adjust threadId id metric adj =>
    obtain rfl := Option.some.inj hs
    exact ⟨h.later ⟨h.wf.tables, h.wf.fresh, h.wf.ended_fresh, h.wf.ended_gen, h.wf.registering⟩
      (Later.of_eq rfl rfl rfl) rfl rfl, Later.of_eq rfl rfl rfl⟩
  | setCheckGeneration uuid gen =>
    obtain rfl := Option.some.inj hs
    exact ⟨h.later ⟨h.wf.tables, h.wf.fresh, h.wf.ended_fresh, h.wf.ended_gen, h.wf.registering⟩
      (Later.of_eq rfl rfl rfl) rfl rfl, Later.of_eq rfl rfl rfl⟩
  | register threadId accountId checkUuid metricName ast =>
    obtain rfl := Option.some.inj hs
    exact ⟨h.later (wf_register h.wf _ rfl) (Later.of_eq rfl rfl rfl) rfl rfl, Later.of_eq rfl rfl rfl⟩
  | registerStep astId =>
    obtain ⟨hwf, hl, hk⟩ := registerStep_wf h.wf hs
    exact ⟨h.later hwf hl hk.cache hk.distributing, hl⟩
  | deregister threadId accountId checkUuid metricName astId =>
    obtain rfl := Option.some.inj hs
    exact ⟨h.later (wf_filter h.wf _) (later_filter s _) rfl rfl, later_filter s _⟩
  | distribute call accountId id name =>
    simp only [directorStep] at hs
    split at hs
    · exact absurd hs (by simp)
    · obtain rfl := Option.some.inj hs
      exact ⟨h.set call ⟨trivial, fun lane hl => absurd rfl hl, rfl⟩, Later.of_eq rfl rfl rfl⟩
  | distributeStep call keep => exact inv_distributeStep h hok hs

theorem inv_start : (Director.start n α).Inv eval nameLen where
  wf := wf_start
  cache := by simp [Director.start]
  calls := by simp [Director.start]

def DirectorAct.Deregisters (astId : Nat) : DirectorAct n α → Prop
  | .deregister _ _ _ _ id => id = astId
  | _ => False

structure Serves (eval : α → MetricId → Bool) (s : Director n α) (r : Search n α) (e call : Nat) :
    Prop where
  registered : r ∈ s.registered
  ended : s.ended r.astId = some e
  served : ∀ d, s.distributing call = some d → Applies r d.message → eval r.ast d.message = true →
    Served r e d

theorem Serves.of_kept {r : Search n α} {e call : Nat} (h : Serves eval s r e call) (hk : Kept s s') :
    Serves eval s' r e call :=
  ⟨hk.registered r h.registered, hk.ended _ _ h.ended, fun d hd => h.served d (hk.distributing ▸ hd)⟩

theorem serves_distributeStep {call call' e : Nat} {keep : MissKey → Bool} {r : Search n α}
    (h : s.Inv eval nameLen) (hsv : Serves eval s r e call)
    (hs : distributeStep eval s call' keep = some s') : Serves eval s' r e call := by
  unfold distributeStep at hs
  cases hd : s.distributing call' with
  | none => simp [hd] at hs
  | some d =>
    have hset : ∀ d', Function.update s.distributing call' (some (advance eval s d)) call = some d' →
        Applies r d'.message → eval r.ast d'.message = true → Served r e d' := by
      intro d' hd' happ hev
      by_cases hc : call = call'
      · subst hc
        simp only [Function.update_self, Option.some.injEq] at hd'
        subst hd'
        rw [message_advance] at happ hev
        exact served_advance h.wf h.cache (h.calls call d hd).len hsv.registered hsv.ended happ hev
          (hsv.served d hd happ hev)
      · rw [Function.update_of_ne hc] at hd'
        exact hsv.served d' hd' happ hev
    rw [hd] at hs
    simp only at hs
    split at hs
    · obtain rfl := Option.some.inj hs
      exact ⟨hsv.registered, hsv.ended, hset⟩
    · obtain rfl := Option.some.inj hs
      refine ⟨hsv.registered, hsv.ended, fun d' hd' => ?_⟩
      by_cases hc : call = call'
      · simp [hc] at hd'
      · simp only [Function.update_of_ne hc] at hd'
        exact hsv.served d' hd'
    · obtain rfl := Option.some.inj hs
      exact ⟨hsv.registered, hsv.ended, hset⟩

theorem serves_step [NeZero n] {act : DirectorAct n α} {e call : Nat} {r : Search n α}
    (h : s.Inv eval nameLen) (hsv : Serves eval s r e call) (hact : ¬ act.Deregisters r.astId)
    (hs : directorStep eval nameLen s act = some s') : Serves eval s' r e call := by
  cases act with
  | adjust threadId id metric adj =>
    obtain rfl := Option.some.inj hs
    exact ⟨hsv.registered, hsv.ended, hsv.served⟩
  | setCheckGeneration uuid gen =>
    obtain rfl := Option.some.inj hs
    exact ⟨hsv.registered, hsv.ended, hsv.served⟩
  | register threadId accountId checkUuid metricName ast =>
    obtain rfl := Option.some.inj hs
    exact ⟨hsv.registered, hsv.ended, hsv.served⟩
  | registerStep astId => exact hsv.of_kept (registerStep_wf h.wf hs).2.2
  | deregister threadId accountId checkUuid metricName astId =>
    obtain rfl := Option.some.inj hs
    refine ⟨List.mem_filter.mpr ⟨hsv.registered, ?_⟩, hsv.ended, hsv.served⟩
    have hne : r.astId ≠ astId := fun he => hact he.symm
    simp [hne]
  | distribute call' accountId id name =>
    simp only [directorStep] at hs
    split at hs
    · exact absurd hs (by simp)
    · obtain rfl := Option.some.inj hs
      refine ⟨hsv.registered, hsv.ended, fun d hd => ?_⟩
      by_cases hc : call = call'
      · subst hc
        simp only [Director.set, Function.update_self, Option.some.injEq] at hd
        subst hd
        exact fun _ _ => trivial
      · simp only [Director.set, Function.update_of_ne hc] at hd
        exact hsv.served d hd
  | distributeStep call' keep => exact serves_distributeStep h hsv hs

/-- In a run in which misses are stored only as `SearchStepOk` says, a call that
begins after the registration of a search has ended hands its message to the
lane of the search, when the search applies to the message, is true on it and
stays registered. -/
theorem search_delivery_of_run [NeZero n] {acts acts' : List (DirectorAct n α)}
    {t : Director n α} {call : Nat} {d : Distribution n} {r : Search n α} (keep : MissKey → Bool)
    (hrun : Run (directorStep eval nameLen) (SearchStepOk eval) (Director.start n α) acts s)
    (hidle : s.distributing call = none) (hreg : r ∈ s.registered) (hend : s.ended r.astId ≠ none)
    (hrun' : Run (directorStep eval nameLen) (SearchStepOk eval) s acts' t)
    (hstays : ∀ act ∈ acts', ¬ act.Deregisters r.astId)
    (hd : t.distributing call = some d) (hphase : d.phase = .deliver)
    (happ : Applies r d.message) (hev : eval r.ast d.message = true) :
    ∃ t', directorStep eval nameLen t (.distributeStep call keep) = some t' ∧
      t'.lanes.queue r.lane = t.lanes.queue r.lane ++ [d.message] := by
  have hinv : s.Inv eval nameLen :=
    hrun.invariant (fun _ _ _ hi hok hs => (inv_step hi hok hs).1) inv_start
  obtain ⟨e, he⟩ := Option.ne_none_iff_exists'.mp hend
  have hsv : Serves eval s r e call := ⟨hreg, he, fun d hd => by simp [hidle] at hd⟩
  obtain ⟨htinv, htsv⟩ := (hrun'.restrict hstays).invariant
    (I := fun s => s.Inv eval nameLen ∧ Serves eval s r e call)
    (fun _ _ _ hi hok hs => ⟨(inv_step hi.1 hok.1 hs).1, serves_step hi.1 hi.2 hok.2 hs⟩) ⟨hinv, hsv⟩
  have hlane : d.interests r.lane ≠ 0 := by
    have hserved := htsv.served d hd happ hev
    rwa [Served, hphase] at hserved
  have hhas := (htinv.calls call d hd).has r.lane hlane
  refine ⟨_, by simp only [directorStep, distributeStep, hd, hphase]; rfl, ?_⟩
  simp only [if_pos hhas]
  rw [queue_distributeMessageWithInterests, if_pos (UInt16.pos_iff_ne_zero.mpr hlane)]

end

section

variable {n : Nat} {α : Type}

instance (r : Search n α) (m : MetricId) : Decidable (Applies r m) :=
  decidable_of_iff (r.accountId = m.accountId ∧ (r.checkUuid = m.id ∨ r.checkUuid = Uuid.zero) ∧
    (r.metricName = m.bareName ∨ r.metricName = [])) ⟨fun h => ⟨h.1, h.2.1, h.2.2⟩, fun h => ⟨h.1, h.2, h.3⟩⟩

instance (eval : α → MetricId → Bool) (s : Director n α) (d : Distribution n) :
    Decidable (StoreOk eval s d) := by
  unfold StoreOk
  split <;> infer_instance

instance (eval : α → MetricId → Bool) (s : Director n α) (act : DirectorAct n α) :
    Decidable (SearchStepOk eval s act) :=
  match act with
  | .distributeStep call _ =>
    match h : s.distributing call with
    | none => isTrue fun d hd => by rw [h] at hd; cases hd
    | some d => decidable_of_iff (StoreOk eval s d) ⟨fun hok d' hd => by
        rw [h] at hd
        exact Option.some.inj hd ▸ hok, fun hok => hok d h⟩
  | .adjust .. | .setCheckGeneration .. | .register .. | .registerStep .. | .deregister
      .. | .distribute .. => isTrue trivial

end

def anySearchActs : List (DirectorAct 1 Unit) :=
  .register 0 1 Uuid.zero [] () :: List.replicate 5 (.registerStep 1)

def isM (_ : Unit) (m : MetricId) : Bool := m.name == [109]

def oneSearchState : Director 1 Unit :=
  (Run.execute (directorStep isM List.length) (fun s act => SearchStepOk isM s act) (Director.start 1 Unit)
    anySearchActs).get (by decide +kernel)

/-- A whole call for the metric n, which stores a miss, and one for m up to its delivery. -/
def missThenHit : List (DirectorAct 1 Unit) :=
  .distribute 1 1 (List.Vector.replicate 16 1) [110] :: List.replicate 20 (.distributeStep 1 fun _ => true) ++
    .distribute 0 1 (List.Vector.replicate 16 1) [109] :: List.replicate 16 (.distributeStep 0 fun _ => true)

def hitReady : Director 1 Unit :=
  (Run.execute (directorStep isM List.length) (fun s act => SearchStepOk isM s act) oneSearchState
    missThenHit).get (by decide +kernel)

theorem search_delivery_one_call :
    hitReady.cache.length = 1 ∧
    ∃ t', directorStep isM List.length hitReady (.distributeStep 0 fun _ => true) = some t' ∧
      t'.lanes.queue 0 = hitReady.lanes.queue 0 ++ [⟨1, List.Vector.replicate 16 1, [109], 1⟩] := by
  have hrun : Run (directorStep isM List.length) (SearchStepOk isM)
    (Director.start 1 Unit) anySearchActs oneSearchState :=
    Run.of_execute (fun _ _ h => of_decide_eq_true h) (Option.some_get _).symm
  have hrun' : Run (directorStep isM List.length) (SearchStepOk isM) oneSearchState missThenHit hitReady :=
    Run.of_execute (fun _ _ h => of_decide_eq_true h) (Option.some_get _).symm
  refine ⟨by decide +kernel, ?_⟩
  exact search_delivery_of_run (r := ⟨1, 0, 1, Uuid.zero, [], ()⟩)
    (d := ⟨⟨1, List.Vector.replicate 16 1, [109], 1⟩, Function.update 0 0 1, 1, .deliver⟩)
    (fun _ => true) hrun rfl (List.mem_singleton.mpr rfl) (by decide) hrun'
    (by simp [missThenHit, DirectorAct.Deregisters]) rfl rfl ⟨rfl, Or.inr rfl, Or.inr rfl⟩ rfl

def staleMissActs : List (DirectorAct 1 Unit) :=
  anySearchActs ++ .adjust 0 (List.Vector.replicate 16 1) [109] 1 ::
    .distribute 0 1 (List.Vector.replicate 16 1) [109] ::
    List.replicate 20 (.distributeStep 0 fun _ => true) ++
    [.adjust 0 (List.Vector.replicate 16 1) [109] (-1)]

def staleMissState : Director 1 Unit :=
  (Run.execute (directorStep (fun _ _ => true) List.length) (fun _ _ => true) (Director.start 1 Unit)
    staleMissActs).get (by decide +kernel)

def staleMissCall : List (DirectorAct 1 Unit) :=
  .distribute 1 1 (List.Vector.replicate 16 1) [109] ::
    List.replicate 9 (.distributeStep 1 fun _ => true)

def staleMissReady : Director 1 Unit :=
  (Run.execute (directorStep (fun _ _ => true) List.length) (fun _ _ => true) staleMissState
    staleMissCall).get (by decide +kernel)

theorem search_delivery_fails :
    ¬ ∀ (eval : Unit → MetricId → Bool) (nameLen : Bytes → Nat)
      (acts acts' : List (DirectorAct 1 Unit)) (s t : Director 1 Unit) (call : Nat)
      (d : Distribution 1) (r : Search 1 Unit) (keep : MissKey → Bool),
      Run (directorStep eval nameLen) (fun _ _ => True) (Director.start 1 Unit) acts s →
      s.distributing call = none → r ∈ s.registered → s.ended r.astId ≠ none →
      Run (directorStep eval nameLen) (fun _ _ => True) s acts' t →
      (∀ act ∈ acts', ¬ act.Deregisters r.astId) →
      t.distributing call = some d → d.phase = .deliver →
      Applies r d.message → eval r.ast d.message = true →
      ∃ t', directorStep eval nameLen t (.distributeStep call keep) = some t' ∧
        t'.lanes.queue r.lane = t.lanes.queue r.lane ++ [d.message] := by
  intro hclaim
  have hrun : Run (directorStep (fun _ _ => true) List.length) (fun _ _ => True)
      (Director.start 1 Unit) staleMissActs staleMissState :=
    Run.of_execute (fun _ _ _ => trivial) (Option.some_get _).symm
  have hrun' : Run (directorStep (fun _ _ => true) List.length) (fun _ _ => True)
      staleMissState staleMissCall staleMissReady :=
    Run.of_execute (fun _ _ _ => trivial) (Option.some_get _).symm
  obtain ⟨t', hstep, hqueue⟩ := hclaim (fun _ _ => true) List.length staleMissActs staleMissCall
    staleMissState staleMissReady 1 ((staleMissReady.distributing 1).get rfl)
    ⟨1, 0, 1, Uuid.zero, [], ()⟩ (fun _ => true) hrun rfl (List.mem_singleton.mpr rfl) (by decide) hrun'
    (by simp [staleMissCall, DirectorAct.Deregisters]) (Option.some_get _).symm rfl
      ⟨rfl, Or.inr rfl, Or.inr rfl⟩ rfl
  have hlen : (t'.lanes.queue 0).length = 1 := by
    have hstep' : (directorStep (fun _ _ => true) List.length staleMissReady
        (.distributeStep 1 fun _ => true)).map (fun t => (t.lanes.queue 0).length) = some 1 := rfl
    rw [hstep] at hstep'
    exact Option.some.inj hstep'
  rw [hqueue] at hlen
  exact absurd hlen (by decide)

end Reconnoiter
