import Reconnoiter.Registry

/-! The list by name against the table by uuid. As long as no operation meets a
target and name that another check is listed under, the list holds exactly the
registered checks. -/

namespace Reconnoiter

namespace Registry

variable {s t u : Registry} {p : Nat} (env : RegistryEnv) {args : CheckArgs}

def Free (s : Registry) (p : Nat) (key : Option Bytes × Option Bytes) : Prop :=
  ∀ q ∈ s.byName, q ≠ p → (s.heap q).key ≠ key

structure Edit (s : Registry) (p : Nat) (t : Registry) : Prop where
  heap : ∀ q, q ≠ p → t.heap q = s.heap q
  listed : ∀ q, q ≠ p → (q ∈ t.byName ↔ q ∈ s.byName)
  nodup : s.byName.Nodup → t.byName.Nodup
  polls : t.polls = s.polls
  next : t.next = s.next
  checkid : (t.heap p).checkid = (s.heap p).checkid
  transient : (t.heap p).flags.transient = (s.heap p).flags.transient

theorem Edit.refl (s : Registry) (p : Nat) : Edit s p s :=
  ⟨fun _ _ => rfl, fun _ _ => Iff.rfl, id, rfl, rfl, rfl, rfl⟩

theorem Edit.trans (h : Edit s p t) (h' : Edit t p u) : Edit s p u where
  heap q hq := (h'.heap q hq).trans (h.heap q hq)
  listed q hq := (h'.listed q hq).trans (h.listed q hq)
  nodup hn := h'.nodup (h.nodup hn)
  polls := h'.polls.trans h.polls
  next := h'.next.trans h.next
  checkid := h'.checkid.trans h.checkid
  transient := h'.transient.trans h.transient

theorem Edit.free (h : Edit s p t) {key : Option Bytes × Option Bytes} (hf : s.Free p key) :
    t.Free p key := by
  intro q hq hqp
  rw [h.heap q hqp]
  exact hf q ((h.listed q hqp).mp hq) hqp

@[simp] theorem heap_set_self (c : Check) : (s.set p c).heap p = c := by simp [set]

theorem heap_set_of_ne {q : Nat} (h : q ≠ p) (c : Check) : (s.set p c).heap q = s.heap q := by
  simp [set, h]

theorem edit_set (c : Check) (hid : c.checkid = (s.heap p).checkid)
    (htr : c.flags.transient = (s.heap p).flags.transient) : Edit s p (s.set p c) :=
  ⟨fun _ hq => heap_set_of_ne hq c, fun _ _ => Iff.rfl, id, rfl, rfl, by rw [heap_set_self, hid],
    by rw [heap_set_self, htr]⟩

theorem find_eq_none (key : Option Bytes × Option Bytes) :
    s.find key = none ↔ ∀ q ∈ s.byName, (s.heap q).key ≠ key := by
  simp [find]

theorem find_eq_some {q : Nat} {key : Option Bytes × Option Bytes} (h : s.find key = some q) :
    q ∈ s.byName ∧ (s.heap q).key = key :=
  ⟨List.mem_of_find?_eq_some h, by simpa using List.find?_some h⟩

theorem find_of_free {key : Option Bytes × Option Bytes} (hf : s.Free p key) :
    s.find key = if p ∈ s.byName ∧ (s.heap p).key = key then some p else none := by
  cases hfind : s.find key with
  | none =>
    rw [if_neg]
    rintro ⟨hp, hk⟩
    exact (find_eq_none key).mp hfind p hp hk
  | some q =>
    obtain ⟨hq, hk⟩ := find_eq_some hfind
    have hqp : q = p := by
      by_contra hne
      exact hf q hq hne hk
    subst hqp
    rw [if_pos ⟨hq, hk⟩]

theorem edit_erase : Edit s p (s.removeNode p) where
  heap _ _ := rfl
  listed _ hq := List.mem_erase_of_ne hq
  nodup hn := hn.erase p
  polls := rfl
  next := rfl
  checkid := rfl
  transient := rfl

theorem edit_insert (hp : p ∉ s.byName) (hf : s.Free p (s.heap p).key) :
    ∃ t, s.insert p = some t ∧ Edit s p t ∧ p ∈ t.byName ∧ t.heap = s.heap := by
  refine ⟨{ s with byName := p :: s.byName }, ?_, ?_, List.mem_cons_self, rfl⟩
  · have hnone : s.find (s.heap p).key = none := by
      rw [find_of_free hf, if_neg fun h => hp h.1]
    simp [insert, hnone]
  · exact ⟨fun _ _ => rfl, fun q hq => by simp [hq], fun hn => List.nodup_cons.mpr ⟨hp, hn⟩, rfl, rfl,
      rfl, rfl⟩

structure Ready (s : Registry) (p : Nat) : Prop where
  nodup : s.byName.Nodup
  transient : (s.heap p).flags.transient = false
  unnamed : (s.heap p).name = none → p ∉ s.byName
  free : (s.heap p).name ≠ none → s.Free p (s.heap p).key

theorem unlist_ready (h : s.Ready p) (hname : (s.heap p).name ≠ none) :
    s.unlist (s.heap p) = s.removeNode p := by
  unfold unlist
  rw [find_of_free (h.free hname)]
  by_cases hp : p ∈ s.byName
  · rw [if_pos ⟨hp, rfl⟩]
  · rw [if_neg fun hc => hp hc.1]
    simp [removeNode, List.erase_of_not_mem hp]

theorem addToList_ready (newname newip : Option Bytes) (h : s.Ready p)
    (hname : (s.heap p).name ≠ none ∨ newname ≠ none)
    (hf : s.Free p ((s.heap p).rename newname newip).key) :
    ∃ t, s.addToList p newname newip = some (t, 0) ∧ Edit s p t ∧ p ∈ t.byName ∧
      t.heap p = (s.heap p).rename newname newip := by
  have hunlist : (if (s.heap p).name ≠ none then s.unlist (s.heap p) else s) = s.removeNode p := by
    split_ifs with hn
    · exact unlist_ready h hn
    · have hp := h.unnamed (not_not.mp hn)
      simp [removeNode, List.erase_of_not_mem hp]
  have hedit : Edit s p ((s.removeNode p).set p ((s.heap p).rename newname newip)) :=
    edit_erase.trans (edit_set _ rfl rfl)
  have hnot : p ∉ ((s.removeNode p).set p ((s.heap p).rename newname newip)).byName :=
    h.nodup.not_mem_erase
  obtain ⟨t, hins, hedit', hmem, hheap⟩ := edit_insert hnot (by
    rw [heap_set_self]
    exact hedit.free hf)
  refine ⟨t, ?_, hedit.trans hedit', hmem, by rw [hheap, heap_set_self]⟩
  unfold addToList
  rw [if_neg (by simp [h.transient]), if_neg (by tauto)]
  simp only [hunlist, hins]

theorem Edit.ready (h : s.Ready p) (he : Edit s p t) (hname : (t.heap p).name ≠ none)
    (hf : s.Free p (t.heap p).key) : t.Ready p :=
  ⟨he.nodup h.nodup, he.transient.trans h.transient, fun hn => absurd hn hname, fun _ => he.free hf⟩

theorem setIp_ready (ipStr : Bytes) (newname : Option Bytes) (h : s.Ready p)
    (hname : (s.heap p).name ≠ none ∨ newname ≠ none)
    (hf : s.Free p ((s.heap p).target, newname.or (s.heap p).name)) :
    ∃ t failed, s.setIp env p ipStr newname = some (t, failed) ∧ Edit s p t ∧ t.Ready p ∧
      (t.heap p).target = (s.heap p).target ∧ (t.heap p).name ≠ none ∧
      ((t.heap p).name = newname.or (s.heap p).name ∨ (t.heap p).name = (s.heap p).name) ∧
      (p ∈ s.byName → p ∈ t.byName) := by
  have hadd : ∀ newip (failed : Bool), ∃ t, (s.addToList p newname newip).map (fun r => (r.1, failed)) =
      some (t, failed) ∧ Edit s p t ∧ t.Ready p ∧ (t.heap p).target = (s.heap p).target ∧
      (t.heap p).name ≠ none ∧ (t.heap p).name = newname.or (s.heap p).name ∧ p ∈ t.byName := by
    intro newip failed
    obtain ⟨t, ht, hedit, hmem, hheap⟩ := addToList_ready newname newip h hname hf
    have hn : (t.heap p).name ≠ none := by
      rw [hheap]
      simpa [Check.rename, or_comm, imp_iff_not_or] using hname
    rw [ht]
    refine ⟨t, rfl, hedit, hedit.ready h hn ?_, ?_, hn, ?_, hmem⟩
    · rw [hheap]
      exact hf
    · rw [hheap]
      rfl
    · rw [hheap]
      rfl
  unfold setIp
  simp only
  split
  · obtain ⟨t, ht, hedit, hready, htarget, hn, hnew, hmem⟩ := hadd _ _
    exact ⟨t, _, ht, hedit, hready, htarget, hn, Or.inl hnew, fun _ => hmem⟩
  · rename_i hc
    exact ⟨s, _, rfl, .refl s p, h, rfl, fun hn => hc (Or.inl hn), Or.inr rfl, id⟩

theorem Ready.set {c : Check} (h : s.Ready p) (hkey : c.key = (s.heap p).key)
    (htr : c.flags.transient = (s.heap p).flags.transient) : (s.set p c).Ready p := by
  have hname : c.name = (s.heap p).name := congrArg Prod.snd hkey
  refine ⟨h.nodup, by rw [heap_set_self, htr, h.transient], fun hn => ?_, fun hn => ?_⟩
  · rw [heap_set_self, hname] at hn
    exact h.unnamed hn
  · rw [heap_set_self] at hn ⊢
    rw [hkey]
    intro q hq hqp
    rw [heap_set_of_ne hqp]
    exact h.free (hname ▸ hn) q hq hqp

theorem resolve_ready (h : s.Ready p) (hname : (s.heap p).name ≠ none) :
    ∃ t rv, s.resolve env p = some (t, rv) ∧ Edit s p t ∧ t.Ready p ∧
      (t.heap p).key = (s.heap p).key ∧ (p ∈ s.byName → p ∈ t.byName) := by
  unfold resolve
  simp only
  split_ifs with hr
  · exact ⟨s, _, rfl, .refl s p, h, rfl, id⟩
  · split
    · rename_i ip _
      set c : Check := { s.heap p with flags := { (s.heap p).flags with resolved := true } } with hc
      have hready : (s.set p c).Ready p := h.set rfl rfl
      have hedit : Edit s p (s.set p c) := edit_set c rfl rfl
      have hname' : ((s.set p c).heap p).name ≠ none := by
        rw [heap_set_self]
        exact hname
      obtain ⟨t, failed, ht, hedit', hready', htarget, _, hn, hmem⟩ :=
        setIp_ready env ip none hready (Or.inl hname') (hready.free hname')
      refine ⟨t, 0, by rw [ht]; rfl, hedit.trans hedit', hready', Prod.ext ?_ ?_, hmem⟩
      · rw [Check.key, htarget, heap_set_self]
        rfl
      · rw [heap_set_self] at hn
        exact hn.elim id id
    · exact ⟨_, _, rfl, edit_set _ rfl rfl, h.set rfl rfl, by rw [heap_set_self]; rfl, id⟩

theorem retarget_ready (h : s.Ready p) (target : Bytes)
    (hold : (s.heap p).name ≠ none → s.Free p (some target, (s.heap p).name)) :
    Edit s p (s.retarget p target) ∧ (s.retarget p target).Ready p ∧
      (s.retarget p target).heap p = { s.heap p with target := some target } := by
  have hset : ∀ s' : Registry, Edit s p s' → s'.heap p = s.heap p →
      ((s.heap p).name = none → p ∉ s'.byName) →
      Edit s p (s'.set p { s.heap p with target := some target }) ∧
        (s'.set p { s.heap p with target := some target }).Ready p := by
    intro s' he hheap hun
    have hedit : Edit s p (s'.set p { s.heap p with target := some target }) :=
      he.trans (edit_set _ (by rw [hheap]) (by rw [hheap]))
    refine ⟨hedit, hedit.nodup h.nodup, by rw [heap_set_self]; exact h.transient, fun hn => ?_,
      fun hn => ?_⟩
    · rw [heap_set_self] at hn
      exact hun hn
    · rw [heap_set_self] at hn ⊢
      exact hedit.free (hold hn)
  unfold retarget
  simp only
  by_cases hex : (if (s.heap p).target ≠ none ∧ (s.heap p).name ≠ none then s.find (s.heap p).key
      else none) = some p
  · rw [if_pos hex, if_pos hex]
    have hname : (s.heap p).name ≠ none := by
      intro hn
      simp [hn] at hex
    obtain ⟨hedit, hready⟩ := hset (s.removeNode p) edit_erase rfl fun hn => absurd hn hname
    obtain ⟨t, ht, hedit', _, hheap⟩ := edit_insert (s := (s.removeNode p).set p _)
      h.nodup.not_mem_erase (hready.free (by rw [heap_set_self]; exact hname))
    rw [ht, Option.getD_some]
    have hp : t.heap p = { s.heap p with target := some target } := by rw [hheap, heap_set_self]
    refine ⟨hedit.trans hedit', (hedit.trans hedit').ready h (by rw [hp]; exact hname) ?_, hp⟩
    rw [hp]
    exact hold hname
  · rw [if_neg hex, if_neg hex]
    obtain ⟨hedit, hready⟩ := hset s (.refl s p) rfl h.unnamed
    exact ⟨hedit, hready, heap_set_self _⟩

theorem address_ready (args : CheckArgs) (h : s.Ready p) (hf : s.Free p ((s.heap p).target, some args.name)) :
    ∃ t flags, s.address env p args = some (t, flags) ∧ flags.transient = args.flags.transient ∧
      Edit s p t ∧ t.Ready p ∧ (t.heap p).target = (s.heap p).target ∧ (t.heap p).name ≠ none ∧
      ((t.heap p).name = some args.name ∨ (t.heap p).name = (s.heap p).name) := by
  obtain ⟨t, failed, ht, hedit, hready, htarget, hname, hor, _⟩ := setIp_ready env args.target
    (some args.name) h (Or.inr (by simp)) hf
  rw [Option.some_or] at hor
  unfold address
  rw [ht]
  cases failed with
  | false => exact ⟨t, args.flags, rfl, rfl, hedit, hready, htarget, hname, hor⟩
  | true =>
    have hready' : (t.modify p (Check.needsResolve env args.target)).Ready p := hready.set rfl rfl
    have hp : (t.modify p (Check.needsResolve env args.target)).heap p =
      Check.needsResolve env args.target (t.heap p) := heap_set_self _
    obtain ⟨u, rv, hu, hedit', hready'', hkey, _⟩ := resolve_ready env hready' (by
      rw [hp]
      exact hname)
    rw [hp] at hkey
    have hutarget : (u.heap p).target = (t.heap p).target := congrArg Prod.fst hkey
    have huname : (u.heap p).name = (t.heap p).name := congrArg Prod.snd hkey
    refine ⟨u, _, by simp only [Option.bind_eq_bind, Option.bind_some, if_true, hu]; rfl, ?_,
      (hedit.trans (edit_set (Check.needsResolve env args.target (t.heap p)) rfl rfl)).trans hedit',
        hready'', hutarget.trans htarget, ?_, ?_⟩
    · split_ifs <;> rfl
    · rw [huname]
      exact hname
    · rw [huname]
      exact hor

theorem key_activate (c : Check) :
    (c.activate env).key = c.key ∧ (c.activate env).checkid = c.checkid ∧
      (c.activate env).flags.transient = c.flags.transient := by
  unfold Check.activate
  split_ifs
  · exact ⟨rfl, rfl, rfl⟩
  · cases env.moduleKind c.module <;> exact ⟨rfl, rfl, rfl⟩
  · cases env.moduleKind c.module <;> exact ⟨rfl, rfl, rfl⟩

theorem updateIdle_ready (args : CheckArgs) (h : s.Ready p) (htr : args.flags.transient = false)
    (hold : (s.heap p).name ≠ none → s.Free p (some args.target, (s.heap p).name))
    (hnew : s.Free p (some args.target, some args.name)) :
    ∃ t, s.updateIdle env p args = some (t, 0) ∧ Edit s p t ∧ p ∈ t.byName ∧
      (t.heap p).target = some args.target ∧ (t.heap p).name ≠ none ∧
      ((t.heap p).name = some args.name ∨ (t.heap p).name = (s.heap p).name) := by
  obtain ⟨hedit₁, hready₁, hp₁⟩ := retarget_ready h args.target hold
  set s₁ := s.retarget p args.target with hs₁
  set s₂ := s₁.modify p (Check.applyResolveFlags args.flags) with hs₂
  have hp₂ : s₂.heap p = Check.applyResolveFlags args.flags (s₁.heap p) := heap_set_self _
  have hedit₂ : Edit s p s₂ := hedit₁.trans (edit_set _ rfl rfl)
  have hready₂ : s₂.Ready p := hready₁.set rfl rfl
  obtain ⟨s₃, flags, hs₃, hflags, hedit₃, hready₃, htarget₃, hname₃, hor₃⟩ :=
    address_ready env args hready₂ (by
      rw [hp₂, hp₁]
      exact hedit₂.free hnew)
  rw [hp₂, hp₁] at htarget₃ hor₃
  set c := (Check.configure args flags (s₃.heap p)) with hc
  have hctr : c.flags.transient = (s₃.heap p).flags.transient := by
    simp [hc, Check.configure, Flags.or, hflags, htr]
  have hready₄ : (s₃.set p c).Ready p := hready₃.set rfl hctr
  obtain ⟨hkey, hid, htr₅⟩ := key_activate env c
  have hp₄ : (s₃.set p c).heap p = c := heap_set_self _
  set s₅ := (s₃.set p c).modify p (Check.activate env) with hs₅
  have hp₅ : s₅.heap p = c.activate env := by rw [hs₅, modify, heap_set_self, hp₄]
  have hready₅ : s₅.Ready p := hready₄.set (by rw [hp₄, hkey]) (by rw [hp₄, htr₅])
  have hedit₅ : Edit s₃ p s₅ :=
    (edit_set c rfl hctr).trans (edit_set _ (by rw [hp₄, hid]) (by rw [hp₄, htr₅]))
  have hname₅ : (s₅.heap p).name = (s₃.heap p).name := by
    rw [hp₅]
    exact congrArg Prod.snd hkey
  have htarget₅ : (s₅.heap p).target = (s₃.heap p).target := by
    rw [hp₅]
    exact congrArg Prod.fst hkey
  have hnamed : (s₅.heap p).name ≠ none := by
    rw [hname₅]
    exact hname₃
  obtain ⟨t, ht, hedit₆, hmem, hp₆⟩ := addToList_ready none none hready₅ (Or.inl hnamed)
    (hready₅.free hnamed)
  refine ⟨t, ?_, (hedit₂.trans hedit₃).trans (hedit₅.trans hedit₆), hmem, ?_, ?_, ?_⟩
  · have htrans : ((s₃.modify p (Check.configure args flags)).heap p).flags.transient = false := by
      rw [modify, heap_set_self]
      exact hctr.trans hready₃.transient
    simp only [updateIdle, ← hs₁, ← hs₂, hs₃, Option.bind_eq_bind, Option.bind_some, htrans,
      Bool.false_eq_true, if_false]
    exact ht
  · rw [hp₆]
    exact htarget₅.trans htarget₃
  · rw [hp₆]
    exact hnamed
  · rw [hp₆]
    exact hname₅ ▸ hor₃

structure Inv (s : Registry) : Prop where
  nodup : s.byName.Nodup
  keys : ∀ q ∈ s.byName, s.Free q (s.heap q).key
  named : ∀ q ∈ s.byName, (s.heap q).target ≠ none ∧ (s.heap q).name ≠ none
  registered : ∀ q ∈ s.byName, s.polls (s.heap q).checkid = some q
  indexed : ∀ v q, s.polls v = some q → q ∈ s.byName ∧ (s.heap q).checkid = v
  fresh : ∀ q ∈ s.byName, q < s.next ∧ (s.heap q).flags.transient = false

def Keeps (s : Registry) (v : Uuid) (t : Registry) : Prop :=
  ∀ q ∈ s.byName, (s.heap q).checkid ≠ v → q ∈ t.byName ∧ t.heap q = s.heap q

theorem Keeps.trans {v : Uuid} (h : s.Keeps v t) (h' : t.Keeps v u) : s.Keeps v u := by
  intro q hq hv
  obtain ⟨hq', he⟩ := h q hq hv
  obtain ⟨hq'', he'⟩ := h' q hq' (he ▸ hv)
  exact ⟨hq'', he'.trans he⟩

theorem inv_start : start.Inv := by
  refine ⟨List.nodup_nil, ?_, ?_, ?_, ?_, ?_⟩ <;> simp [start]

variable {v : Uuid}

theorem Inv.ready (h : s.Inv) (hv : s.polls v = some p) : s.Ready p := by
  obtain ⟨hp, _⟩ := h.indexed v p hv
  exact ⟨h.nodup, (h.fresh p hp).2, fun hn => absurd hn (h.named p hp).2, fun _ => h.keys p hp⟩

theorem Edit.keeps (h : s.Inv) (hv : s.polls v = some p) (he : Edit s p t) : s.Keeps v t := by
  intro q hq hne
  have hqp : q ≠ p := by
    rintro rfl
    exact hne (h.indexed v q hv).2
  exact ⟨(he.listed q hqp).mpr hq, he.heap q hqp⟩

theorem Inv.put (h : s.Inv) (hheap : ∀ q, q ≠ p → t.heap q = s.heap q)
    (hlisted : ∀ q, q ≠ p → (q ∈ t.byName ↔ q ∈ s.byName)) (hnodup : t.byName.Nodup)
    (hp : p ∈ t.byName) (hid : (t.heap p).checkid = v) (htr : (t.heap p).flags.transient = false)
    (hnamed : (t.heap p).target ≠ none ∧ (t.heap p).name ≠ none) (hfree : s.Free p (t.heap p).key)
    (hpolls : t.polls = Function.update s.polls v (some p))
    (hown : ∀ q ∈ s.byName, q ≠ p → (s.heap q).checkid ≠ v) (hreg : ∀ w, s.polls w = some p → w = v)
    (hnext : s.next ≤ t.next) (hlt : p < t.next) : t.Inv where
  nodup := hnodup
  keys q hq r hr hrq := by
    by_cases hqp : q = p
    · subst hqp
      rw [hheap r hrq]
      exact hfree r ((hlisted r hrq).mp hr) hrq
    · rw [hheap q hqp]
      have hq' := (hlisted q hqp).mp hq
      by_cases hrp : r = p
      · subst hrp
        exact (hfree q hq' hqp).symm
      · rw [hheap r hrp]
        exact h.keys q hq' r ((hlisted r hrp).mp hr) hrq
  named q hq := by
    by_cases hqp : q = p
    · subst hqp
      exact hnamed
    · rw [hheap q hqp]
      exact h.named q ((hlisted q hqp).mp hq)
  registered q hq := by
    by_cases hqp : q = p
    · subst hqp
      rw [hpolls, hid, Function.update_self]
    · have hq' := (hlisted q hqp).mp hq
      rw [hpolls, hheap q hqp, Function.update_of_ne (hown q hq' hqp)]
      exact h.registered q hq'
  indexed w q hw := by
    rw [hpolls] at hw
    by_cases hwv : w = v
    · subst hwv
      rw [Function.update_self] at hw
      obtain rfl := Option.some.inj hw
      exact ⟨hp, hid⟩
    · rw [Function.update_of_ne hwv] at hw
      have hqp : q ≠ p := by
        rintro rfl
        exact hwv (hreg w hw)
      rw [hheap q hqp, hlisted q hqp]
      exact h.indexed w q hw
  fresh q hq := by
    by_cases hqp : q = p
    · subst hqp
      exact ⟨hlt, htr⟩
    · rw [hheap q hqp]
      obtain ⟨hlt', htr'⟩ := h.fresh q ((hlisted q hqp).mp hq)
      exact ⟨hlt'.trans_le hnext, htr'⟩

theorem Inv.edit (h : s.Inv) (hv : s.polls v = some p) (he : Edit s p t) (hp : p ∈ t.byName)
    (hnamed : (t.heap p).target ≠ none ∧ (t.heap p).name ≠ none) (hfree : s.Free p (t.heap p).key) :
    t.Inv := by
  obtain ⟨hps, hid⟩ := h.indexed v p hv
  refine h.put he.heap he.listed (he.nodup h.nodup) hp (he.checkid.trans hid)
    (he.transient.trans (h.fresh p hps).2) hnamed hfree ?_ (fun q hq hqp hqv => hqp ?_) (fun w hw => ?_)
    he.next.ge (he.next ▸ (h.fresh p hps).1)
  · rw [he.polls, ← hv, Function.update_eq_self]
  · have hq' := h.registered q hq
    rw [hqv, hv] at hq'
    exact (Option.some.inj hq').symm
  · exact (h.indexed w p hw).2.symm.trans hid

theorem Inv.set (h : s.Inv) (hv : s.polls v = some p) {c : Check} (hkey : c.key = (s.heap p).key)
    (hid : c.checkid = (s.heap p).checkid) (htr : c.flags.transient = (s.heap p).flags.transient) :
    (s.set p c).Inv ∧ s.Keeps v (s.set p c) := by
  obtain ⟨hp, _⟩ := h.indexed v p hv
  have he : Edit s p (s.set p c) := edit_set c hid htr
  refine ⟨h.edit hv he hp ?_ ?_, he.keeps h hv⟩
  · have htarget : c.target = (s.heap p).target := congrArg Prod.fst hkey
    have hname : c.name = (s.heap p).name := congrArg Prod.snd hkey
    rw [heap_set_self, htarget, hname]
    exact h.named p hp
  · rw [heap_set_self, hkey]
    exact h.keys p hp

theorem polls_freeCheck {q : Nat} (hf : s.freeCheck env q = some t) :
    t.polls = s.polls ∧ t.byName = s.byName ∧ t.next = s.next ∧ ∀ r, r ≠ q → t.heap r = s.heap r := by
  unfold freeCheck at hf
  simp only at hf
  split_ifs at hf
  · obtain rfl := Option.some.inj hf
    exact ⟨rfl, rfl, rfl, fun r hr => heap_set_of_ne hr _⟩
  · obtain rfl := Option.some.inj hf
    exact ⟨rfl, rfl, rfl, fun r hr => heap_set_of_ne hr _⟩

theorem Inv.drop (h : s.Inv) (hv : s.polls v = some p) (hheap : ∀ q, q ≠ p → t.heap q = s.heap q)
    (hlist : t.byName = s.byName.erase p) (hpolls : t.polls = Function.update s.polls v none)
    (hnext : t.next = s.next) : t.Inv ∧ s.Keeps v t := by
  obtain ⟨hp, hid⟩ := h.indexed v p hv
  have hmem : ∀ q, q ∈ t.byName → q ≠ p ∧ q ∈ s.byName := by
    intro q hq
    rw [hlist] at hq
    exact (h.nodup.mem_erase_iff).mp hq
  have hne : ∀ q ∈ s.byName, q ≠ p → (s.heap q).checkid ≠ v := by
    intro q hq hqp hqv
    have hq' := h.registered q hq
    rw [hqv, hv] at hq'
    exact hqp (Option.some.inj hq').symm
  refine ⟨⟨hlist ▸ h.nodup.erase p, fun q hq r hr hrq => ?_, fun q hq => ?_, fun q hq => ?_,
    fun w q hw => ?_, fun q hq => ?_⟩, fun q hq hqv => ?_⟩
  · rw [hheap q (hmem q hq).1, hheap r (hmem r hr).1]
    exact h.keys q (hmem q hq).2 r (hmem r hr).2 hrq
  · rw [hheap q (hmem q hq).1]
    exact h.named q (hmem q hq).2
  · obtain ⟨hqp, hq'⟩ := hmem q hq
    rw [hheap q hqp, hpolls, Function.update_of_ne (hne q hq' hqp)]
    exact h.registered q hq'
  · rw [hpolls] at hw
    by_cases hwv : w = v
    · subst hwv
      simp at hw
    · rw [Function.update_of_ne hwv] at hw
      obtain ⟨hq, hqid⟩ := h.indexed w q hw
      have hqp : q ≠ p := by
        rintro rfl
        exact hwv (hqid.symm.trans hid)
      rw [hheap q hqp, hlist]
      exact ⟨(List.mem_erase_of_ne hqp).mpr hq, hqid⟩
  · rw [hheap q (hmem q hq).1, hnext]
    exact h.fresh q (hmem q hq).2
  · have hqp : q ≠ p := by
      rintro rfl
      exact hqv hid
    rw [hlist]
    exact ⟨(List.mem_erase_of_ne hqp).mpr hq, hheap q hqp⟩

theorem inv_deschedule {readding : Bool} {rv : Int} (h : s.Inv)
    (hs : s.deschedule env v readding = some (t, rv)) :
    t.Inv ∧ s.Keeps v t ∧ (readding = true → t.polls v = none) ∧
      ∀ q ∈ t.byName, q ∈ s.byName ∧ (t.heap q).key = (s.heap q).key ∧
        (readding = true → s.polls v ≠ some q) := by
  unfold deschedule at hs
  cases hv : s.polls v with
  | none =>
    rw [hv] at hs
    obtain ⟨rfl, _⟩ := Prod.mk.inj (Option.some.inj hs)
    exact ⟨h, fun q hq _ => ⟨hq, rfl⟩, fun _ => hv, fun q hq => ⟨hq, rfl, fun _ => by simp⟩⟩
  | some p =>
    obtain ⟨hp, _⟩ := h.indexed v p hv
    rw [hv] at hs
    simp only at hs
    set c : Check := { s.heap p with flags :=
      { (s.heap p).flags with disabled := true, killed := true, deleted := true } } with hc
    split_ifs at hs with hgone
    · have hfind : (s.set p c).find (s.heap p).key = some p := by
        have hedit : Edit s p (s.set p c) := edit_set c rfl rfl
        rw [find_of_free (hedit.free (h.keys p hp)), if_pos ⟨hp, by rw [heap_set_self]; rfl⟩]
      rw [hfind] at hs
      simp only [Option.bind_eq_bind, Option.bind_some] at hs
      obtain ⟨u, hu, hs⟩ := Option.bind_eq_some_iff.mp hs
      obtain ⟨rfl, _⟩ := Prod.mk.inj (Option.some.inj hs)
      obtain ⟨hpolls, hlist, hnext, hheap⟩ := polls_freeCheck env hu
      have hheap' : ∀ q, q ≠ p → u.heap q = s.heap q := fun q hq =>
        (hheap q hq).trans (heap_set_of_ne hq c)
      obtain ⟨hinv, hkeeps⟩ := h.drop hv hheap' hlist hpolls hnext
      refine ⟨hinv, hkeeps, fun _ => ?_, fun q hq => ?_⟩
      · rw [hpolls]
        exact Function.update_self _ _ _
      · rw [hlist] at hq
        obtain ⟨hqp, hq'⟩ := (h.nodup.mem_erase_iff).mp hq
        exact ⟨hq', by rw [hheap' q hqp], fun _ hpq => hqp (Option.some.inj hpq).symm⟩
    · obtain ⟨rfl, _⟩ := Prod.mk.inj (Option.some.inj hs)
      obtain ⟨hinv, hkeeps⟩ := h.set hv (c := c) rfl rfl rfl
      refine ⟨hinv, hkeeps, fun hr => absurd (Or.inr hr) hgone, fun q hq => ⟨hq, ?_, fun hr =>
        absurd (Or.inr hr) hgone⟩⟩
      by_cases hqp : q = p
      · subst hqp
        rw [heap_set_self]
        rfl
      · rw [heap_set_of_ne hqp]

theorem inv_schedule (args : CheckArgs) {module : Bytes} {uuid generated : Uuid} (h : s.Inv)
    (hv : s.polls (if uuid = Uuid.zero then generated else uuid) = none)
    (htr : args.flags.transient = false)
    (hfree : ∀ q ∈ s.byName, (s.heap q).key ≠ (some args.target, some args.name))
    (hs : s.schedule env module args uuid generated = some t) :
    t.Inv ∧ s.Keeps (if uuid = Uuid.zero then generated else uuid) t := by
  set checkid := if uuid = Uuid.zero then generated else uuid with hid
  set c : Check := { checkid := checkid, module := module } with hc
  set s₀ : Registry := { s.set s.next c with next := s.next + 1 } with hs₀
  have hnot : s.next ∉ s.byName := fun hn => absurd (h.fresh _ hn).1 (lt_irrefl _)
  have hp₀ : s₀.heap s.next = c := heap_set_self c
  have hheap₀ : ∀ q, q ≠ s.next → s₀.heap q = s.heap q := fun q hq => heap_set_of_ne hq c
  have hready : s₀.Ready s.next :=
    ⟨h.nodup, by rw [hp₀], fun _ => hnot, fun hn => absurd (by rw [hp₀]) hn⟩
  obtain ⟨t₀, ht₀, he, hmem, htarget, hname, hor⟩ := updateIdle_ready env args.normalized
    hready htr (fun hn => absurd (by rw [hp₀]) hn) (fun q hq hqp => by
      rw [hheap₀ q hqp]
      exact hfree q hq)
  have hpolls₀ : t₀.polls checkid = none := by
    rw [he.polls]
    exact hv
  have ht : t = { t₀ with polls := Function.update t₀.polls checkid (some s.next) } := by
    unfold schedule at hs
    simp only [← hid, ← hc, ← hs₀, ht₀, Option.bind_eq_bind, Option.bind_some, hpolls₀] at hs
    exact (Option.some.inj hs).symm
  have hkey : (t.heap s.next).key = (some args.target, some args.name) := by
    rw [ht]
    refine Prod.ext htarget (hor.resolve_right fun hn => hname ?_)
    rw [hn, hp₀]
  subst ht
  refine ⟨h.put (p := s.next) (v := checkid) (fun q hq => ?_) he.listed (he.nodup h.nodup) hmem ?_ ?_
    ⟨by rw [htarget]; simp, hname⟩ (fun q hq _ => ?_) ?_ (fun q hq _ hqv => ?_) (fun w hw => ?_) ?_ ?_,
    fun q hq _ => ?_⟩
  · exact (he.heap q hq).trans (hheap₀ q hq)
  · exact he.checkid.trans (by rw [hp₀])
  · exact he.transient.trans (by rw [hp₀])
  · rw [hkey]
    exact hfree q hq
  · simp only [he.polls]
    rfl
  · have hq' := h.registered q hq
    rw [hqv, hv] at hq'
    exact absurd hq' (by simp)
  · exact absurd (h.indexed w _ hw).1 hnot
  · simp only [he.next]
    exact Nat.le_succ _
  · simp only [he.next]
    exact Nat.lt_succ_self _
  · have hqp : q ≠ s.next := by
      rintro rfl
      exact hnot hq
    exact ⟨(he.listed q hqp).mpr hq, (he.heap q hqp).trans (hheap₀ q hqp)⟩

theorem inv_update {rv : Int} (h : s.Inv) (hv : s.polls v = some p) (htr : args.flags.transient = false)
    (hold : s.Free p (some args.target, (s.heap p).name))
    (hnew : s.Free p (some args.target, some args.name)) (hs : s.update env p args = some (t, rv)) :
    t.Inv ∧ s.Keeps v t := by
  obtain ⟨hp, hid⟩ := h.indexed v p hv
  unfold update at hs
  simp only at hs
  generalize (if args.seq < 0 then 0 else (s.heap p).configSeq) = configSeq at hs
  set c : Check := { s.heap p with configSeq := configSeq } with hc
  obtain ⟨hinv, hkeeps⟩ := h.set hv (c := c) rfl rfl rfl
  have hedit : Edit s p (s.set p c) := edit_set c rfl rfl
  have hp₁ : (s.set p c).heap p = c := heap_set_self c
  split_ifs at hs with hseq hrun
  · obtain ⟨rfl, _⟩ := Prod.mk.inj (Option.some.inj hs)
    exact ⟨hinv, hkeeps⟩
  · rw [hid] at hs
    obtain ⟨⟨s₂, rv₂⟩, hs₂, hs⟩ := Option.bind_eq_some_iff.mp hs
    obtain ⟨s₃, hs₃, hs⟩ := Option.bind_eq_some_iff.mp hs
    obtain ⟨rfl, _⟩ := Prod.mk.inj (Option.some.inj hs)
    obtain ⟨hinv₂, hkeeps₂, hgone, hsub⟩ := inv_deschedule env hinv hs₂
    have hv₂ := hgone rfl
    have hfree₂ : ∀ q ∈ s₂.byName, (s₂.heap q).key ≠ (some args.target, some args.name) := by
      intro q hq
      obtain ⟨hq', hkey, hqp⟩ := hsub q hq
      rw [hkey]
      refine hedit.free hnew q hq' ?_
      rintro rfl
      exact hqp rfl hv
    obtain ⟨hinv₃, hkeeps₃⟩ := inv_schedule env args.normalized hinv₂ (by rw [ite_self]; exact hv₂) htr
      hfree₂ hs₃
    rw [ite_self] at hkeeps₃
    exact ⟨hinv₃, (hkeeps.trans hkeeps₂).trans hkeeps₃⟩
  · have hready : (s.set p c).Ready p := (h.ready hv).set rfl rfl
    obtain ⟨t', ht', he, hmem, htarget, hname, hor⟩ := updateIdle_ready env args.normalized
      hready htr (fun _ => by rw [hp₁]; exact hedit.free hold) (hedit.free hnew)
    rw [ht'] at hs
    obtain ⟨rfl, _⟩ := Prod.mk.inj (Option.some.inj hs)
    rw [hp₁] at hor
    refine ⟨h.edit hv (hedit.trans he) hmem ⟨by rw [htarget]; simp, hname⟩ ?_, (hedit.trans he).keeps h hv⟩
    have hkey : (t'.heap p).key = (some args.target, (t'.heap p).name) := Prod.ext htarget rfl
    rw [hkey]
    rcases hor with hn | hn
    · rw [hn]
      exact hnew
    · rw [hn]
      exact hold

theorem inv_resolve {rv : Int} (h : s.Inv) (hv : s.polls v = some p)
    (hs : s.resolve env p = some (t, rv)) : t.Inv ∧ s.Keeps v t := by
  obtain ⟨hp, _⟩ := h.indexed v p hv
  obtain ⟨t', _, ht', he, _, hkey, hmem⟩ := resolve_ready env (h.ready hv) (h.named p hp).2
  rw [ht'] at hs
  obtain ⟨rfl, _⟩ := Prod.mk.inj (Option.some.inj hs)
  refine ⟨h.edit hv he (hmem hp) ?_ ?_, he.keeps h hv⟩
  · have htarget : (t'.heap p).target = (s.heap p).target := congrArg Prod.fst hkey
    have hname : (t'.heap p).name = (s.heap p).name := congrArg Prod.snd hkey
    rw [htarget, hname]
    exact h.named p hp
  · rw [hkey]
    exact h.keys p hp

end Registry

def RegistryAct.checkid : RegistryAct → Uuid
  | .schedule _ _ _ uuid generated => if uuid = Uuid.zero then generated else uuid
  | .update _ uuid _ => uuid
  | .resolve _ uuid => uuid
  | .deschedule _ uuid _ => uuid
  | .recycle _ uuid => uuid
  | .setRunning uuid _ => uuid

def RegistryAct.adds : RegistryAct → Option (Bytes × Bytes)
  | .schedule _ _ args _ _ => some (args.target, args.name)
  | .update _ _ args => some (args.target, args.name)
  | _ => none

def RegistryAct.NonTransient : RegistryAct → Prop
  | .schedule _ _ args _ _ => args.flags.transient = false
  | .update _ _ args => args.flags.transient = false
  | _ => True

/-- A new check has a uuid of its own, and no other check is listed under the new
target with the new name, nor, for an update, with the old one. -/
def RegistryAct.Clear (s : Registry) : RegistryAct → Prop
  | .schedule _ _ args uuid generated =>
    s.polls (if uuid = Uuid.zero then generated else uuid) = none ∧
      ∀ q ∈ s.byName, (s.heap q).key ≠ (some args.target, some args.name)
  | .update _ uuid args => ∀ p, s.polls uuid = some p →
    s.Free p (some args.target, some args.name) ∧ s.Free p (some args.target, (s.heap p).name)
  | _ => True

/-- What is expected of the list by name after an operation. -/
structure ByNameOk (s : Registry) (act : RegistryAct) (t : Registry) : Prop where
  unique : (t.byName.map fun q => (t.heap q).key).Nodup
  registered : ∀ q ∈ t.byName, t.polls (t.heap q).checkid = some q ∧
    (t.heap q).target ≠ none ∧ (t.heap q).name ≠ none
  foreign : s.Keeps act.checkid t
  conflict : ∀ target name, act.adds = some (target, name) → ∀ q ∈ s.byName,
    (s.heap q).checkid ≠ act.checkid → (s.heap q).key = (some target, some name) →
    ∀ p, t.polls act.checkid = some p → (t.heap p).flags.disabled = true ∧ p ∉ t.byName

theorem inv_registryStep {s t : Registry} {act : RegistryAct} (h : s.Inv) (hnt : act.NonTransient)
    (hok : act.Clear s) (hs : registryStep s act = some t) : t.Inv ∧ s.Keeps act.checkid t := by
  cases act with
  | schedule env module args uuid generated =>
    exact Registry.inv_schedule env args h hok.1 hnt hok.2 hs
  | update env uuid args =>
    obtain ⟨p, hp, hs⟩ := Option.bind_eq_some_iff.mp hs
    obtain ⟨⟨t', rv⟩, hop, rfl⟩ := Option.map_eq_some_iff.mp hs
    exact Registry.inv_update env h hp hnt (hok p hp).2 (hok p hp).1 hop
  | resolve env uuid =>
    obtain ⟨p, hp, hs⟩ := Option.bind_eq_some_iff.mp hs
    obtain ⟨⟨t', rv⟩, hop, rfl⟩ := Option.map_eq_some_iff.mp hs
    exact Registry.inv_resolve env h hp hop
  | deschedule env uuid readding =>
    obtain ⟨⟨t', rv⟩, hop, rfl⟩ := Option.map_eq_some_iff.mp hs
    obtain ⟨hinv, hkeeps, _⟩ := Registry.inv_deschedule env h hop
    exact ⟨hinv, hkeeps⟩
  | recycle env uuid =>
    obtain ⟨p, hp, hs⟩ := Option.bind_eq_some_iff.mp hs
    split_ifs at hs
    obtain ⟨⟨t', rv⟩, hop, rfl⟩ := Option.map_eq_some_iff.mp hs
    obtain ⟨hinv, hkeeps⟩ := h.set hp (c := { s.heap p with configSeq := 0 }) rfl rfl rfl
    obtain ⟨hinv', hkeeps', _⟩ := Registry.inv_deschedule env hinv hop
    exact ⟨hinv', hkeeps.trans hkeeps'⟩
  | setRunning uuid running =>
    obtain ⟨p, hp, rfl⟩ := Option.map_eq_some_iff.mp hs
    exact h.set hp rfl rfl rfl

theorem no_conflict {s t : Registry} {act : RegistryAct} {target name : Bytes} {q : Nat} (h : s.Inv)
    (hok : act.Clear s) (hs : registryStep s act = some t) (hadds : act.adds = some (target, name))
    (hq : q ∈ s.byName) (hid : (s.heap q).checkid ≠ act.checkid) :
    (s.heap q).key ≠ (some target, some name) := by
  cases act with
  | schedule env module args uuid generated =>
    obtain ⟨rfl, rfl⟩ := Prod.mk.inj (Option.some.inj hadds)
    exact hok.2 q hq
  | update env uuid args =>
    obtain ⟨rfl, rfl⟩ := Prod.mk.inj (Option.some.inj hadds)
    obtain ⟨p, hp, _⟩ := Option.bind_eq_some_iff.mp hs
    refine (hok p hp).1 q hq ?_
    rintro rfl
    exact hid (h.indexed uuid q hp).2
  | _ => exact absurd hadds (by simp [RegistryAct.adds])

/-- In a run of operations that all are clear, the list by name is as expected
after every operation. -/
theorem byName_ok_of_run {acts : List RegistryAct} {act : RegistryAct} {s t : Registry}
    (hrun : Run registryStep (fun s act => act.NonTransient ∧ act.Clear s) Registry.start acts s)
    (hnt : act.NonTransient) (hok : act.Clear s) (hs : registryStep s act = some t) :
    ByNameOk s act t := by
  have hinv : s.Inv :=
    hrun.invariant (fun _ _ _ hi hc hstep => (inv_registryStep hi hc.1 hc.2 hstep).1) Registry.inv_start
  obtain ⟨hinv', hkeeps⟩ := inv_registryStep hinv hnt hok hs
  refine ⟨hinv'.nodup.map_on fun q hq r hr hk => ?_, fun q hq => ⟨hinv'.registered q hq, hinv'.named q hq⟩,
    hkeeps, fun target name hadds q hq hid hkey => ?_⟩
  · by_contra hne
    exact hinv'.keys r hr q hq hne hk
  · exact absurd hkey (no_conflict hinv hok hs hadds hq hid)

def plainEnv : RegistryEnv := ⟨fun _ _ _ => none, fun _ _ => none, [], false, fun _ => .inert, false⟩

def plainArgs (target name : Bytes) (seq : Int) : CheckArgs :=
  ⟨target, name, none, none, none, 60000, 5000, 0, 0, none, seq, {}⟩

def scheduleNamed (uuid : Uuid) (target name : Bytes) : RegistryAct :=
  .schedule plainEnv [104] (plainArgs target name 1) uuid uuid

def oneCheck : Registry :=
  (registryStep Registry.start (scheduleNamed (List.Vector.replicate 16 1) [116] [110])).get
    (by decide +kernel)

theorem oneCheck_run : registryStep Registry.start
    (scheduleNamed (List.Vector.replicate 16 1) [116] [110]) = some oneCheck :=
  (Option.some_get _).symm

theorem byName_ok_second_name :
    ByNameOk oneCheck (scheduleNamed (List.Vector.replicate 16 2) [116] [111])
      ((registryStep oneCheck (scheduleNamed (List.Vector.replicate 16 2) [116] [111])).get
        (by decide +kernel)) := by
  have hclear : (scheduleNamed (List.Vector.replicate 16 1) [116] [110]).Clear Registry.start :=
    ⟨rfl, by decide +kernel⟩
  have hrun : Run registryStep (fun s act => act.NonTransient ∧ act.Clear s) Registry.start
      [scheduleNamed (List.Vector.replicate 16 1) [116] [110]] oneCheck :=
    .cons ⟨rfl, hclear⟩ oneCheck_run (.nil _)
  have hclear' : (scheduleNamed (List.Vector.replicate 16 2) [116] [111]).Clear oneCheck :=
    ⟨by decide +kernel, by decide +kernel⟩
  exact byName_ok_of_run hrun rfl hclear' (Option.some_get _).symm

theorem byName_ok_fails :
    ¬ ∀ (acts : List RegistryAct) (act : RegistryAct) (s t : Registry),
      Run registryStep (fun _ act => act.NonTransient) Registry.start acts s → act.NonTransient →
      registryStep s act = some t → ByNameOk s act t := by
  intro hclaim
  have hstep : registryStep oneCheck (scheduleNamed (List.Vector.replicate 16 2) [116] [110]) =
      some ((registryStep oneCheck (scheduleNamed (List.Vector.replicate 16 2) [116] [110])).get
        (by decide +kernel)) := (Option.some_get _).symm
  have hrun : Run registryStep (fun _ act => act.NonTransient) Registry.start
      [scheduleNamed (List.Vector.replicate 16 1) [116] [110]] oneCheck :=
    .cons rfl oneCheck_run (.nil _)
  have hok := hclaim _ (scheduleNamed (List.Vector.replicate 16 2) [116] [110]) _ _ hrun rfl hstep
  obtain ⟨hlisted, _⟩ := hok.foreign 0 (by decide +kernel) (by decide +kernel)
  exact absurd hlisted (by decide +kernel)

/-- In a run of operations that all are clear, the checks that the table has under a uuid are the listed
ones with this uuid. -/
theorem registered_iff_listed {acts : List RegistryAct} {s : Registry}
    (hrun : Run registryStep (fun s act => act.NonTransient ∧ act.Clear s) Registry.start acts s)
    (v : Uuid) (q : Nat) :
    s.polls v = some q ↔ q ∈ s.byName ∧ (s.heap q).checkid = v := by
  have hinv : s.Inv :=
    hrun.invariant (fun _ _ _ hi hc hstep => (inv_registryStep hi hc.1 hc.2 hstep).1) Registry.inv_start
  constructor
  · exact hinv.indexed v q
  · rintro ⟨hq, rfl⟩
    exact hinv.registered q hq

theorem registered_iff_listed_one :
    oneCheck.polls (List.Vector.replicate 16 1) = some 0 ∧ ∀ v q, oneCheck.polls v = some q →
      q ∈ oneCheck.byName := by
  have hclear : (scheduleNamed (List.Vector.replicate 16 1) [116] [110]).Clear Registry.start :=
    ⟨rfl, by decide +kernel⟩
  have hrun : Run registryStep (fun s act => act.NonTransient ∧ act.Clear s) Registry.start
      [scheduleNamed (List.Vector.replicate 16 1) [116] [110]] oneCheck :=
    .cons ⟨rfl, hclear⟩ oneCheck_run (.nil _)
  exact ⟨by decide +kernel, fun v q h => ((registered_iff_listed hrun v q).mp h).1⟩

end Reconnoiter
