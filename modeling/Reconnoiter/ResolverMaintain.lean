import Reconnoiter.Bytes

/-! The maintenance pass of the DNS cache. The cache is walked in the order of expiry; an entry whose lookup
cannot be made is blanked, which takes it out of the index and puts it back with a new expiry while the walk
goes on from the entry that came after it. -/

namespace Reconnoiter

structure DnsNode where
  target : Bytes
  lastNeeded : Int
  lastUpdated : Int
  ttl : Int
  inflight4 : Bool
  inflight6 : Bool
  ip4 : List Bytes
  ip6 : List Bytes
  deriving DecidableEq, Repr

def defaultFailedTtl : Int := 60

def defaultPurgeAge : Int := 1200

def DnsNode.expiry (n : DnsNode) : Int := n.lastUpdated + n.ttl

inductive DnsFamily
  | v4
  | v6
  deriving DecidableEq, Repr

def blankUpdateV4 (now : Int) (n : DnsNode) : DnsNode :=
  { n with
    ip4 := []
    lastUpdated := now
    ttl := if n.inflight6 then defaultFailedTtl else n.ttl
    inflight4 := false }

def blankUpdateV6 (now : Int) (n : DnsNode) : DnsNode :=
  { n with
    ip6 := []
    lastUpdated := now
    ttl := if n.inflight4 then defaultFailedTtl else n.ttl
    inflight6 := false }

def blankUpdate (now : Int) (n : DnsNode) : DnsNode := blankUpdateV6 now (blankUpdateV4 now n)

structure Firing where
  node : DnsNode
  moved : Bool
  fired : Bool
  deriving DecidableEq, Repr

def insertIndex (n : DnsNode) : List DnsNode → List DnsNode
  | [] => [n]
  | m :: l => if m.expiry ≤ n.expiry then m :: insertIndex n l else n :: m :: l

/-- The walk: the index up to the entry `sn` and from it on, without the entry in hand, the names that lookups
were started or blanked for, and the turns made. -/
structure DnsPass where
  behind : List DnsNode
  ahead : List DnsNode
  fired : List Bytes
  turn : Nat
  ended : Bool

/-- `dns_ptodn` by the name, and `dns_submit_dn` by the turn of the loop, the name and the record type:
whether they succeed. `dns_timeouts`, by the turn and the record type it is called after, may end queries, and
`dns_cache_resolve` then changes the walk and the entry in hand. -/
structure DnsLibrary where
  ptodn : Bytes → Bool
  submit : Nat → Bytes → DnsFamily → Bool
  timeouts : Nat → DnsFamily → DnsPass × Firing → DnsPass × Firing

/-- No query ends inside the pass. -/
class DnsLibrary.Silent (lib : DnsLibrary) : Prop where
  timeouts_eq : ∀ turn family x, lib.timeouts turn family x = x

def fireV4 (lib : DnsLibrary) (now : Int) (x : DnsPass × Firing) : DnsPass × Firing :=
  let n := x.2.node
  if n.inflight4 then x
  else if lib.submit x.1.turn n.target .v4 then
    lib.timeouts x.1.turn .v4 (x.1, ⟨{ n with inflight4 := true }, x.2.moved, true⟩)
  else (x.1, ⟨blankUpdateV4 now { n with inflight4 := true }, true, true⟩)

def fireV6 (lib : DnsLibrary) (now : Int) (x : DnsPass × Firing) : DnsPass × Firing :=
  let n := x.2.node
  if n.inflight6 then x
  else if lib.submit x.1.turn n.target .v6 then
    lib.timeouts x.1.turn .v6 (x.1, ⟨{ n with inflight6 := true }, x.2.moved, true⟩)
  else (x.1, ⟨blankUpdateV6 now { n with inflight6 := true }, true, true⟩)

def fireLookups (lib : DnsLibrary) (now : Int) (p : DnsPass) (n : DnsNode) : DnsPass × Firing :=
  if lib.ptodn n.target = false then (p, ⟨blankUpdate now n, true, true⟩)
  else fireV6 lib now (fireV4 lib now (p, ⟨n, false, false⟩))

namespace DnsPass

def start (index : List DnsNode) : DnsPass := ⟨[], index, [], 0, false⟩

def putBack (p : DnsPass) (n : DnsNode) : DnsPass :=
  if (∀ m ∈ p.behind, m.expiry ≤ n.expiry) ∧ ∃ m ∈ p.ahead.head?, m.expiry ≤ n.expiry then
    { p with ahead := insertIndex n p.ahead }
  else { p with behind := insertIndex n p.behind }

def visit (lib : DnsLibrary) (now : Int) (p : DnsPass) (n : DnsNode) : DnsPass :=
  let (p, f) := fireLookups lib now p n
  let p := { p with fired := if f.fired then p.fired ++ [n.target] else p.fired, turn := p.turn + 1 }
  if f.moved then p.putBack f.node else { p with behind := p.behind ++ [f.node] }

def purges (now : Int) (n : DnsNode) : Bool :=
  n.lastNeeded + defaultPurgeAge < now && !(n.inflight4 || n.inflight6)

def step (lib : DnsLibrary) (now : Int) (p : DnsPass) : DnsPass :=
  if p.ended then p
  else match p.ahead with
    | [] => { p with ended := true }
    | n :: ahead =>
      if now < n.expiry then { p with ended := true }
      else if purges now n then { p with ahead := ahead, turn := p.turn + 1 }
      else visit lib now { p with ahead := ahead } n

def run (lib : DnsLibrary) (now : Int) (index : List DnsNode) (turns : Nat) : DnsPass :=
  (step lib now)^[turns] (start index)

def index (p : DnsPass) : List DnsNode := p.behind ++ p.ahead

end DnsPass

/-- A cache: its names are distinct, its index is in order, and no lookup is in flight for a name that
cannot be made into a query. -/
structure DnsCache (lib : DnsLibrary) where
  index : List DnsNode
  sorted : index.Pairwise fun a b => a.expiry ≤ b.expiry
  distinct : (index.map (·.target)).Nodup
  quiet : ∀ n ∈ index, lib.ptodn n.target = false → n.inflight4 = false ∧ n.inflight6 = false

def MaintainsOnce (lib : DnsLibrary) (now : Int) (cache : DnsCache lib) : Prop :=
  ∃ turns, (DnsPass.run lib now cache.index turns).ended = true ∧
    (DnsPass.run lib now cache.index turns).fired.Nodup ∧
    ∀ n ∈ (DnsPass.run lib now cache.index turns).index, lib.ptodn n.target = false →
      n.target ∈ (DnsPass.run lib now cache.index turns).fired → now + defaultFailedTtl ≤ n.expiry

theorem mem_insertIndex {n m : DnsNode} {l : List DnsNode} : m ∈ insertIndex n l ↔ m = n ∨ m ∈ l := by
  induction l with
  | nil => simp [insertIndex]
  | cons a l ih =>
    rw [insertIndex]
    split_ifs
    · simp only [List.mem_cons, ih]
      exact or_left_comm
    · simp

theorem insertIndex_perm (n : DnsNode) (l : List DnsNode) : (insertIndex n l).Perm (n :: l) := by
  induction l with
  | nil => exact List.Perm.refl _
  | cons a l ih =>
    rw [insertIndex]
    split_ifs
    · exact (ih.cons a).trans (List.Perm.swap n a l)
    · exact List.Perm.refl _

theorem insertIndex_sorted {n : DnsNode} {l : List DnsNode} (h : l.Pairwise fun a b => a.expiry ≤ b.expiry) :
    (insertIndex n l).Pairwise fun a b => a.expiry ≤ b.expiry := by
  induction l with
  | nil => exact List.pairwise_singleton _ _
  | cons a l ih =>
    obtain ⟨hhead, htail⟩ := List.pairwise_cons.mp h
    rw [insertIndex]
    split_ifs with hle
    · refine List.pairwise_cons.mpr ⟨?_, ih htail⟩
      intro b hb
      rcases mem_insertIndex.mp hb with rfl | hb
      · exact hle
      · exact hhead b hb
    · refine List.pairwise_cons.mpr ⟨?_, h⟩
      intro b hb
      rcases List.mem_cons.mp hb with rfl | hb
      · omega
      · have := hhead b hb
        omega

theorem insertIndex_append {n : DnsNode} {l : List DnsNode} (h : ∀ m ∈ l, m.expiry ≤ n.expiry)
    (r : List DnsNode) :
    insertIndex n (l ++ r) = l ++ insertIndex n r := by
  induction l with
  | nil => rfl
  | cons a l ih =>
    rw [List.cons_append, insertIndex, if_pos (h a List.mem_cons_self),
      ih fun m hm => h m (List.mem_cons_of_mem a hm), List.cons_append]

theorem insertIndex_append_left {n : DnsNode} {l r : List DnsNode}
    (h : (∃ m ∈ l, n.expiry < m.expiry) ∨ ∀ m ∈ r.head?, n.expiry < m.expiry) :
    insertIndex n (l ++ r) = insertIndex n l ++ r := by
  induction l with
  | nil =>
    rcases h with ⟨m, hm, -⟩ | h
    · exact absurd hm List.not_mem_nil
    · cases r with
      | nil => rfl
      | cons m r =>
        have hlt := h m rfl
        simp [insertIndex, not_le.mpr hlt]
  | cons a l ih =>
    rw [List.cons_append, insertIndex, insertIndex]
    split_ifs with hle
    · rw [List.cons_append, ih]
      rcases h with ⟨m, hm, hlt⟩ | h
      · rcases List.mem_cons.mp hm with rfl | hm
        · omega
        · exact Or.inl ⟨m, hm, hlt⟩
      · exact Or.inr h
    · rfl

namespace DnsPass

theorem index_putBack (p : DnsPass) (n : DnsNode) : (p.putBack n).index = insertIndex n p.index := by
  unfold putBack
  split_ifs with hahead
  · exact (insertIndex_append hahead.1 p.ahead).symm
  · refine (insertIndex_append_left ?_).symm
    by_cases hall : ∀ m ∈ p.behind, m.expiry ≤ n.expiry
    · right
      intro m hm
      by_contra hle
      exact hahead ⟨hall, m, hm, by omega⟩
    · left
      push Not at hall
      exact hall

@[simp] theorem putBack_fired (p : DnsPass) (n : DnsNode) : (p.putBack n).fired = p.fired := by
  unfold putBack
  split_ifs <;> rfl

@[simp] theorem putBack_turn (p : DnsPass) (n : DnsNode) : (p.putBack n).turn = p.turn := by
  unfold putBack
  split_ifs <;> rfl

@[simp] theorem putBack_ended (p : DnsPass) (n : DnsNode) : (p.putBack n).ended = p.ended := by
  unfold putBack
  split_ifs <;> rfl

theorem ahead_putBack (p : DnsPass) (n : DnsNode) :
    (p.putBack n).ahead = p.ahead ∨ (p.putBack n).ahead = insertIndex n p.ahead := by
  unfold putBack
  split_ifs
  · exact Or.inr rfl
  · exact Or.inl rfl

end DnsPass

section

variable {lib : DnsLibrary} [lib.Silent] {now : Int} {p : DnsPass} {n : DnsNode}

@[simp] theorem fireLookups_fst : (fireLookups lib now p n).1 = p := by
  simp only [fireLookups, fireV4, fireV6, DnsLibrary.Silent.timeouts_eq]
  split_ifs <;> rfl

@[simp] theorem fireLookups_target : (fireLookups lib now p n).2.node.target = n.target := by
  simp only [fireLookups, fireV4, fireV6, DnsLibrary.Silent.timeouts_eq]
  split_ifs <;> rfl

@[simp] theorem fireLookups_lastNeeded : (fireLookups lib now p n).2.node.lastNeeded = n.lastNeeded := by
  simp only [fireLookups, fireV4, fireV6, DnsLibrary.Silent.timeouts_eq]
  split_ifs <;> rfl

theorem fireLookups_unmoved (h : (fireLookups lib now p n).2.moved = false) :
    (fireLookups lib now p n).2.node.expiry = n.expiry := by
  simp only [fireLookups, fireV4, fireV6, DnsLibrary.Silent.timeouts_eq] at *
  split_ifs at * <;> rfl

theorem blankUpdate_eq (h4 : n.inflight4 = false) (h6 : n.inflight6 = false) :
    blankUpdate now n = { n with ip4 := [], ip6 := [], lastUpdated := now } := by
  cases n
  simp_all [blankUpdate, blankUpdateV4, blankUpdateV6]

omit [lib.Silent] in
theorem fireLookups_unqueried (hname : lib.ptodn n.target = false) :
    (fireLookups lib now p n).2 = ⟨blankUpdate now n, true, true⟩ := by
  rw [fireLookups, if_pos hname]

theorem fireLookups_refused (hname : lib.ptodn n.target = true) (h4 : n.inflight4 = false)
    (h6 : n.inflight6 = false) (hsubmit : lib.submit p.turn n.target .v4 = false) :
    (fireLookups lib now p n).2.moved = true ∧ (fireLookups lib now p n).2.fired = true ∧
      (fireLookups lib now p n).2.node.expiry = now + n.ttl ∧
      (fireLookups lib now p n).2.node.inflight4 = false := by
  cases hsubmit6 : lib.submit p.turn n.target .v6 <;>
    simp [fireLookups, fireV4, fireV6, DnsLibrary.Silent.timeouts_eq, hname, h4,
      h6, hsubmit, hsubmit6, blankUpdateV4, blankUpdateV6, DnsNode.expiry]

theorem fireLookups_moved (hname : lib.ptodn n.target = true)
    (hmoved : (fireLookups lib now p n).2.moved = true)
    (hother : ¬ (n.inflight4 = false ∧ n.inflight6 = false ∧ lib.submit p.turn n.target .v4 = false)) :
    now < (fireLookups lib now p n).2.node.expiry := by
  cases h4 : n.inflight4 <;> cases h6 : n.inflight6 <;> cases hs4 : lib.submit p.turn n.target .v4 <;>
    cases hs6 : lib.submit p.turn n.target .v6 <;>
    simp [fireLookups, fireV4, fireV6, DnsLibrary.Silent.timeouts_eq, hname, h4,
      h6, hs4, hs6, blankUpdateV4, blankUpdateV6, DnsNode.expiry,
      defaultFailedTtl] at hmoved hother ⊢

theorem fireLookups_fired (hname : lib.ptodn n.target = true) (h4 : n.inflight4 = false) :
    (fireLookups lib now p n).2.fired = true := by
  cases hs4 : lib.submit p.turn n.target .v4 <;>
    cases hs6 : lib.submit p.turn n.target .v6 <;> cases h6 : n.inflight6 <;>
    simp [fireLookups, fireV4, fireV6, DnsLibrary.Silent.timeouts_eq, hname, h4, hs4, hs6, h6, blankUpdateV4]

namespace DnsPass

variable {q : DnsPass}

theorem step_cases (lib : DnsLibrary) (now : Int) (hopen : p.ended = false) :
    ((p.ahead = [] ∨ ∃ n rest, p.ahead = n :: rest ∧ now < n.expiry) ∧
      step lib now p = { p with ended := true }) ∨
      ∃ n rest, p.ahead = n :: rest ∧ n.expiry ≤ now ∧
        ((purges now n = true ∧ step lib now p = { p with ahead := rest, turn := p.turn + 1 }) ∨
          (purges now n = false ∧ step lib now p = visit lib now { p with ahead := rest } n)) := by
  unfold step
  rw [if_neg (by simp [hopen])]
  cases hahead : p.ahead with
  | nil => exact Or.inl ⟨Or.inl rfl, rfl⟩
  | cons n rest =>
    dsimp only
    split_ifs with hlater hpurge
    · exact Or.inl ⟨Or.inr ⟨n, rest, rfl, hlater⟩, rfl⟩
    · exact Or.inr ⟨n, rest, rfl, by omega, Or.inl ⟨hpurge, rfl⟩⟩
    · exact Or.inr ⟨n, rest, rfl, by omega, Or.inr ⟨by simpa using hpurge, rfl⟩⟩

omit [lib.Silent] in
theorem step_ended (h : p.ended = true) : step lib now p = p := by
  rw [step, if_pos h]

theorem visit_moved (hmoved : (fireLookups lib now q n).2.moved = true) :
    visit lib now q n = putBack { q with
      fired := if (fireLookups lib now q n).2.fired then q.fired ++ [n.target] else q.fired
      turn := q.turn + 1 } (fireLookups lib now q n).2.node := by
  rw [visit]
  dsimp only
  rw [if_pos hmoved, fireLookups_fst]

theorem visit_unmoved (hmoved : (fireLookups lib now q n).2.moved = false) :
    visit lib now q n =
      ⟨q.behind ++ [(fireLookups lib now q n).2.node], q.ahead,
        if (fireLookups lib now q n).2.fired then q.fired ++ [n.target]
          else q.fired, q.turn + 1, q.ended⟩ := by
  rw [visit]
  dsimp only
  rw [if_neg (by simp [hmoved]), fireLookups_fst]

theorem visit_fired (lib : DnsLibrary) [lib.Silent] (now : Int) (q : DnsPass) (n : DnsNode) :
    (visit lib now q n).fired =
    if (fireLookups lib now q n).2.fired then q.fired ++ [n.target] else q.fired := by
  cases hmoved : (fireLookups lib now q n).2.moved
  · rw [visit_unmoved hmoved]
  · rw [visit_moved hmoved, putBack_fired]

theorem visit_ended (lib : DnsLibrary) [lib.Silent] (now : Int) (q : DnsPass) (n : DnsNode) :
    (visit lib now q n).ended = q.ended := by
  cases hmoved : (fireLookups lib now q n).2.moved
  · rw [visit_unmoved hmoved]
  · rw [visit_moved hmoved, putBack_ended]

theorem visit_turn (lib : DnsLibrary) [lib.Silent] (now : Int) (q : DnsPass) (n : DnsNode) :
    (visit lib now q n).turn = q.turn + 1 := by
  cases hmoved : (fireLookups lib now q n).2.moved
  · rw [visit_unmoved hmoved]
  · rw [visit_moved hmoved, putBack_turn]

theorem mem_index_visit (lib : DnsLibrary) [lib.Silent] (now : Int) (q : DnsPass) (n m : DnsNode) :
    m ∈ (visit lib now q n).index ↔ m = (fireLookups lib now q n).2.node ∨ m ∈ q.index := by
  cases hmoved : (fireLookups lib now q n).2.moved
  · rw [visit_unmoved hmoved]
    simp only [index, List.append_assoc, List.mem_append, List.mem_singleton]
    exact or_left_comm
  · rw [visit_moved hmoved, index_putBack]
    exact mem_insertIndex

theorem mem_ahead_visit {m : DnsNode} (hm : m ∈ q.ahead) : m ∈ (visit lib now q n).ahead := by
  cases hmoved : (fireLookups lib now q n).2.moved
  · rw [visit_unmoved hmoved]
    exact hm
  · rw [visit_moved hmoved]
    rcases ahead_putBack _ _ with hahead | hahead
    · rw [hahead]
      exact hm
    · rw [hahead]
      exact mem_insertIndex.mpr (Or.inr hm)

theorem mem_fired_visit {t : Bytes} (ht : t ∈ q.fired) : t ∈ (visit lib now q n).fired := by
  rw [visit_fired]
  split_ifs
  · exact List.mem_append_left _ ht
  · exact ht

theorem count_fired_visit (lib : DnsLibrary) [lib.Silent] (now : Int) (q : DnsPass)
    (n : DnsNode) (t : Bytes) :
    q.fired.count t ≤ (visit lib now q n).fired.count t := by
  rw [visit_fired]
  split_ifs
  · rw [List.count_append]
    omega
  · exact le_rfl

/-- The index stays in order with distinct names; a pass ends before entries that expire later only. -/
structure Sound (now : Int) (p : DnsPass) : Prop where
  sorted : p.index.Pairwise fun a b => a.expiry ≤ b.expiry
  distinct : (p.index.map (·.target)).Nodup
  ends : p.ended = true → ∀ m ∈ p.ahead, now < m.expiry

theorem Sound.visit (h : Sound now p) {rest : List DnsNode} (hahead : p.ahead = n :: rest)
    (hopen : p.ended = false) : Sound now (visit lib now { p with ahead := rest } n) := by
  have hindex : p.index = p.behind ++ n :: rest := by rw [index, hahead]
  have hsub : (p.behind ++ rest).Sublist p.index := by
    rw [hindex]
    exact (List.Sublist.refl _).append (List.sublist_cons_self n rest)
  generalize hq : { p with ahead := rest } = q
  have hqindex : q.index = p.behind ++ rest := by rw [← hq]; rfl
  have hqturn : q.turn = p.turn := by rw [← hq]
  have hends : (DnsPass.visit lib now q n).ended = true →
    ∀ m ∈ (DnsPass.visit lib now q n).ahead, now < m.expiry := by
    intro hended
    rw [visit_ended, ← hq, hopen] at hended
    exact Bool.noConfusion hended
  cases hmoved : (fireLookups lib now q n).2.moved
  · have hlist : (DnsPass.visit lib now q n).index =
        p.behind ++ (fireLookups lib now q n).2.node :: rest := by
      rw [visit_unmoved hmoved, index, ← hq]
      simp
    refine ⟨?_, ?_, hends⟩
    · rw [← List.pairwise_map (f := DnsNode.expiry), hlist, List.map_append,
        List.map_cons, fireLookups_unmoved hmoved,
        ← List.map_cons, ← List.map_append, ← hindex, List.pairwise_map]
      exact h.sorted
    · rw [hlist, List.map_append, List.map_cons, fireLookups_target, ← List.map_cons,
        ← List.map_append, ← hindex]
      exact h.distinct
  · have hlist : (DnsPass.visit lib now q n).index =
        insertIndex (fireLookups lib now q n).2.node (p.behind ++ rest) := by
      rw [visit_moved hmoved, index_putBack, ← hqindex]
      rfl
    refine ⟨?_, ?_, hends⟩
    · rw [hlist]
      exact insertIndex_sorted (h.sorted.sublist hsub)
    · rw [hlist, ((insertIndex_perm _ _).map _).nodup_iff, List.map_cons, fireLookups_target, ← List.map_cons]
      have hperm : (n :: (p.behind ++ rest)).Perm p.index := by
        rw [hindex]
        exact List.perm_middle.symm
      exact (hperm.map _).nodup_iff.mpr h.distinct

theorem Sound.step (h : Sound now p) : Sound now (step lib now p) := by
  cases hopen : p.ended
  · rcases step_cases lib now hopen with ⟨hend, hstep⟩ | ⟨n, rest, hahead, -, ⟨-, hstep⟩ | ⟨-, hstep⟩⟩
    · rw [hstep]
      refine ⟨h.sorted, h.distinct, ?_⟩
      intro _ m hm
      rcases hend with hnil | ⟨n, rest, hahead, hlater⟩
      · rw [hnil] at hm
        exact absurd hm List.not_mem_nil
      · have hsorted := (List.pairwise_append.mp h.sorted).2.1
        rw [hahead] at hsorted hm
        rcases List.mem_cons.mp hm with rfl | hm
        · exact hlater
        · exact lt_of_lt_of_le hlater ((List.pairwise_cons.mp hsorted).1 m hm)
    · have hsub : (p.behind ++ rest).Sublist p.index := by
        rw [index, hahead]
        exact (List.Sublist.refl _).append (List.sublist_cons_self n rest)
      rw [hstep]
      refine ⟨h.sorted.sublist hsub, h.distinct.sublist (hsub.map _), ?_⟩
      intro hended
      exact absurd (hopen.symm.trans hended) (by decide)
    · rw [hstep]
      exact h.visit hahead hopen
  · rw [step_ended hopen]
    exact h

theorem run_succ (lib : DnsLibrary) (now : Int) (index : List DnsNode) (turns : Nat) :
    run lib now index (turns + 1) = step lib now (run lib now index turns) :=
  Function.iterate_succ_apply' _ _ _

theorem sound_run (cache : DnsCache lib) (turns : Nat) : Sound now (run lib now cache.index turns) := by
  induction turns with
  | zero => exact ⟨cache.sorted, cache.distinct, fun h => Bool.noConfusion h⟩
  | succ turns ih =>
    rw [run_succ]
    exact ih.step

theorem purges_eq_false (h : now ≤ n.lastNeeded + defaultPurgeAge) : purges now n = false := by
  simp [purges]
  omega

theorem mem_fired_step {t : Bytes} (ht : t ∈ p.fired) : t ∈ (step lib now p).fired := by
  cases hopen : p.ended
  · rcases step_cases lib now hopen with ⟨-, hstep⟩ | ⟨m, rest, -, -, ⟨-, hstep⟩ | ⟨-, hstep⟩⟩
    · rw [hstep]
      exact ht
    · rw [hstep]
      exact ht
    · rw [hstep]
      exact mem_fired_visit ht
  · rw [step_ended hopen]
    exact ht

theorem track_step {Q : DnsNode → Prop} {R : DnsPass → Prop} {ts : List Bytes}
    (hkeep : ∀ n, Q n → now ≤ n.lastNeeded + defaultPurgeAge)
    (hvisit : ∀ q n, ts ⊆ q.fired → Q n → R (visit lib now q n)) (hR : ∀ p, R p → R (step lib now p))
    (h : (ts ⊆ p.fired ∧ ∃ n ∈ p.ahead, Q n) ∨ R p) :
    (ts ⊆ (step lib now p).fired ∧ ∃ n ∈ (step lib now p).ahead, Q n) ∨ R (step lib now p) := by
  rcases h with ⟨hts, n, hn, hQ⟩ | h
  · have hts' : ts ⊆ (step lib now p).fired := fun t ht => mem_fired_step (hts ht)
    cases hopen : p.ended
    · rcases step_cases lib now hopen with ⟨-, hstep⟩ | ⟨m, rest, hahead, -, ⟨hpurge, hstep⟩ | ⟨-, hstep⟩⟩
      · exact Or.inl ⟨hts', n, by rw [hstep]; exact hn, hQ⟩
      · rw [hahead] at hn
        rcases List.mem_cons.mp hn with rfl | hn
        · rw [purges_eq_false (hkeep n hQ)] at hpurge
          exact Bool.noConfusion hpurge
        · exact Or.inl ⟨hts', n, by rw [hstep]; exact hn, hQ⟩
      · rw [hahead] at hn
        rcases List.mem_cons.mp hn with rfl | hn
        · right
          rw [hstep]
          exact hvisit _ n hts hQ
        · exact Or.inl ⟨hts', n, by rw [hstep]; exact mem_ahead_visit hn, hQ⟩
    · exact Or.inl ⟨hts', n, by rw [step_ended hopen]; exact hn, hQ⟩
  · exact Or.inr (hR p h)

def Blanked (now : Int) (t : Bytes) (ttl : Int) (p : DnsPass) : Prop :=
  t ∈ p.fired ∧ ∃ n ∈ p.index, n.target = t ∧ n.inflight4 = false ∧ n.inflight6 = false ∧
    now ≤ n.lastNeeded + defaultPurgeAge ∧ n.lastUpdated = now ∧ n.ttl = ttl

theorem Blanked.visit_self {t : Bytes} {ttl : Int} (hname : lib.ptodn t = false)
    (q : DnsPass) (ht : n.target = t)
    (h4 : n.inflight4 = false) (h6 : n.inflight6 = false) (hneeded : now ≤ n.lastNeeded + defaultPurgeAge)
    (httl : n.ttl = ttl) : Blanked now t ttl (visit lib now q n) := by
  have hfire : (fireLookups lib now q n).2 = ⟨blankUpdate now n, true, true⟩ :=
    fireLookups_unqueried (by rw [ht]; exact hname)
  refine ⟨?_, blankUpdate now n, ?_, ?_⟩
  · rw [visit_fired, hfire]
    simp [ht]
  · rw [mem_index_visit, hfire]
    exact Or.inl rfl
  · rw [blankUpdate_eq h4 h6]
    exact ⟨ht, h4, h6, hneeded, rfl, httl⟩

theorem Blanked.step {t : Bytes} {ttl : Int} (hname : lib.ptodn t = false) (h : Blanked now t ttl p) :
    Blanked now t ttl (step lib now p) := by
  obtain ⟨hfired, n, hn, ht, h4, h6, hneeded, hupdated, httl⟩ := h
  cases hopen : p.ended
  · rcases step_cases lib now hopen with ⟨-, hstep⟩ | ⟨m, rest, hahead, -, hcase⟩
    · rw [hstep]
      exact ⟨hfired, n, hn, ht, h4, h6, hneeded, hupdated, httl⟩
    · have hplace : n = m ∨ n ∈ p.behind ++ rest := by
        rw [index, hahead, List.mem_append, List.mem_cons] at hn
        rw [List.mem_append]
        exact or_left_comm.mp hn
      rcases hcase with ⟨hpurge, hstep⟩ | ⟨-, hstep⟩
      · rw [hstep]
        rcases hplace with rfl | hplace
        · rw [purges_eq_false hneeded] at hpurge
          exact Bool.noConfusion hpurge
        · exact ⟨hfired, n, hplace, ht, h4, h6, hneeded, hupdated, httl⟩
      · rw [hstep]
        rcases hplace with rfl | hplace
        · exact Blanked.visit_self hname _ ht h4 h6 hneeded httl
        · exact ⟨mem_fired_visit hfired, n, (mem_index_visit lib now _ _ n).mpr (Or.inr hplace),
            ht, h4, h6, hneeded,
            hupdated, httl⟩
  · rw [step_ended hopen]
    exact ⟨hfired, n, hn, ht, h4, h6, hneeded, hupdated, httl⟩

theorem count_fired_step (t : Bytes) (h : 2 ≤ p.fired.count t) : 2 ≤ (step lib now p).fired.count t := by
  cases hopen : p.ended
  · rcases step_cases lib now hopen with ⟨-, hstep⟩ | ⟨m, rest, -, -, ⟨-, hstep⟩ | ⟨-, hstep⟩⟩
    · rw [hstep]
      exact h
    · rw [hstep]
      exact h
    · rw [hstep]
      exact le_trans h (count_fired_visit lib now { p with ahead := rest } m t)
  · rw [step_ended hopen]
    exact h

structure Clean (lib : DnsLibrary) (now : Int) (due : List DnsNode) (i : Nat) (p : DnsPass) : Prop where
  isOpen : p.ended = false
  turn : p.turn = i
  ahead : ∃ later, p.ahead = due.drop i ++ later ∧ ∀ m ∈ later, now < m.expiry
  fired : p.fired.Sublist ((due.take i).map (·.target))
  failed : ∀ m ∈ p.index, lib.ptodn m.target = false → m.target ∈ p.fired → now + defaultFailedTtl ≤ m.expiry

end DnsPass

/-- The entry's first lookup is refused in this turn with none in flight, and its TTL lets it be due again at
once. -/
structure RefusedAt (lib : DnsLibrary) (now : Int) (turn : Nat) (n : DnsNode) : Prop where
  due : n.expiry ≤ now
  needed : now ≤ n.lastNeeded + defaultPurgeAge
  name : lib.ptodn n.target = true
  idle4 : n.inflight4 = false
  idle6 : n.inflight6 = false
  refused : lib.submit turn n.target .v4 = false
  ttl : n.ttl ≤ 0

namespace DnsPass

theorem needed_of_not_purged (h : purges now n = false) (h4 : n.inflight4 = false)
    (h6 : n.inflight6 = false) :
    now ≤ n.lastNeeded + defaultPurgeAge := by
  simp [purges, h4, h6] at h
  exact h

theorem ahead_visit_clean {due later : List DnsNode} (hahead : q.ahead = due ++ later)
    (hdue : ∀ m ∈ due, m.expiry ≤ now) (hlater : ∀ m ∈ later, now < m.expiry) (hpurge : purges now n = false)
    (hndue : n.expiry ≤ now) (hquiet : lib.ptodn n.target = false → n.inflight4 = false ∧ n.inflight6 = false)
    (hfailed : now ≤ n.lastNeeded + defaultPurgeAge → lib.ptodn n.target = false → defaultFailedTtl ≤ n.ttl)
    (hrefused : RefusedAt lib now q.turn n → ∀ m ∈ due.head?, now + n.ttl < m.expiry) :
    ∃ later, (visit lib now q n).ahead = due ++ later ∧ ∀ m ∈ later, now < m.expiry := by
  cases hmoved : (fireLookups lib now q n).2.moved
  · rw [visit_unmoved hmoved]
    exact ⟨later, hahead, hlater⟩
  · rw [visit_moved hmoved]
    by_cases hlate : now < (fireLookups lib now q n).2.node.expiry
    · rcases ahead_putBack _ _ with hback | hback
      · rw [hback]
        exact ⟨later, hahead, hlater⟩
      · rw [hback]
        dsimp only
        rw [hahead, insertIndex_append fun m hm => le_trans (hdue m hm) hlate.le]
        refine ⟨_, rfl, ?_⟩
        intro m hm
        rcases mem_insertIndex.mp hm with rfl | hm
        · exact hlate
        · exact hlater m hm
    · -- due again at once: only an entry whose first lookup was refused is, and nothing due is ahead of it
      have hname : lib.ptodn n.target = true := by
        by_contra hname
        rw [Bool.not_eq_true] at hname
        obtain ⟨h4, h6⟩ := hquiet hname
        have httl := hfailed (needed_of_not_purged hpurge h4 h6) hname
        rw [fireLookups_unqueried hname, blankUpdate_eq h4 h6] at hlate
        simp only [DnsNode.expiry, defaultFailedTtl] at hlate httl
        omega
      obtain ⟨h4, h6, hsubmit⟩ : n.inflight4 = false ∧ n.inflight6 = false ∧
          lib.submit q.turn n.target .v4 = false := by
        by_contra hother
        exact hlate (fireLookups_moved hname hmoved hother)
      have hexpiry := (@fireLookups_refused lib _ now _ _ hname h4 h6 hsubmit).2.2.1
      have httl : n.ttl ≤ 0 := by omega
      have hnext := hrefused ⟨hndue, needed_of_not_purged hpurge h4 h6, hname, h4, h6, hsubmit, httl⟩
      rw [putBack, if_neg]
      · exact ⟨later, hahead, hlater⟩
      · rintro ⟨-, m, hm, hle⟩
        dsimp only at hm
        rw [hahead] at hm
        rw [hexpiry] at hle
        cases due with
        | nil =>
          have := hlater m (List.mem_of_mem_head? hm)
          omega
        | cons d due =>
          have := hnext m hm
          omega

theorem Clean.step {due : List DnsNode} {i : Nat} (hclean : Clean lib now due i p) (hsound : Sound now p)
    (hdue : ∀ m ∈ due, m.expiry ≤ now) (hi : due[i]? = some n)
    (hquiet : lib.ptodn n.target = false → n.inflight4 = false ∧ n.inflight6 = false)
    (hfailed : now ≤ n.lastNeeded + defaultPurgeAge → lib.ptodn n.target = false → defaultFailedTtl ≤ n.ttl)
    (hrefused : RefusedAt lib now i n → ∀ m, due[i + 1]? = some m → now + n.ttl < m.expiry) :
    Clean lib now due (i + 1) (step lib now p) := by
  obtain ⟨later, hahead, hlater⟩ := hclean.ahead
  have hdrop : due.drop i = n :: due.drop (i + 1) := by
    obtain ⟨hlt, rfl⟩ := List.getElem?_eq_some_iff.mp hi
    exact List.drop_eq_getElem_cons hlt
  have htake : (due.take (i + 1)).map (·.target) = (due.take i).map (·.target) ++ [n.target] := by
    rw [List.take_add_one, hi, List.map_append]
    rfl
  rw [hdrop, List.cons_append] at hahead
  have hndue : n.expiry ≤ now := hdue n (List.mem_of_getElem? hi)
  have hsub : (p.fired).Sublist ((due.take (i + 1)).map (·.target)) := by
    rw [htake]
    exact hclean.fired.trans (List.sublist_append_left _ _)
  rcases step_cases lib now hclean.isOpen with ⟨hend, -⟩ | ⟨n', rest, hahead', -, hcase⟩
  · rcases hend with hnil | ⟨n', rest, hahead', hlate⟩
    · rw [hnil] at hahead
      exact absurd hahead.symm (List.cons_ne_nil _ _)
    · rw [hahead, List.cons.injEq] at hahead'
      rw [← hahead'.1] at hlate
      omega
  · rw [hahead, List.cons.injEq] at hahead'
    obtain ⟨rfl, rfl⟩ := hahead'
    rcases hcase with ⟨-, hstep⟩ | ⟨hpurge, hstep⟩
    · rw [hstep]
      refine ⟨hclean.isOpen, by rw [← hclean.turn], ⟨later, rfl, hlater⟩, hsub, ?_⟩
      intro m hm
      apply hclean.failed m
      rw [index, List.mem_append] at hm ⊢
      rw [hahead]
      exact hm.imp_right fun hm => List.mem_cons_of_mem n hm
    · rw [hstep]
      refine ⟨?_, ?_, ?_, ?_, ?_⟩
      · rw [visit_ended]
        exact hclean.isOpen
      · rw [visit_turn]
        exact congrArg (· + 1) hclean.turn
      · apply ahead_visit_clean rfl (fun m hm => hdue m (List.mem_of_mem_drop hm))
          hlater hpurge hndue hquiet hfailed
        dsimp only
        rw [hclean.turn]
        intro hat m hm
        apply hrefused hat m
        rw [← List.head?_drop]
        exact hm
      · rw [visit_fired, htake]
        split_ifs
        · exact hclean.fired.append (List.Sublist.refl _)
        · exact hclean.fired.trans (List.sublist_append_left _ _)
      · intro m hm hname hfired
        rcases (mem_index_visit lib now _ n m).mp hm with rfl | hm
        · rw [fireLookups_target] at hname
          obtain ⟨h4, h6⟩ := hquiet hname
          have httl := hfailed (needed_of_not_purged hpurge h4 h6) hname
          rw [fireLookups_unqueried hname, blankUpdate_eq h4 h6]
          simp only [DnsNode.expiry]
          omega
        · have hne : m.target ≠ n.target := by
            have hdistinct := hsound.distinct
            rw [index, hahead, (List.perm_middle.map _).nodup_iff, List.map_cons,
              List.nodup_cons] at hdistinct
            exact fun heq => hdistinct.1 (heq ▸ List.mem_map_of_mem hm)
          apply hclean.failed m _ hname
          · rw [visit_fired] at hfired
            split_ifs at hfired
            · rcases List.mem_append.mp hfired with hfired | hfired
              · exact hfired
              · exact absurd (List.mem_singleton.mp hfired) hne
            · exact hfired
          · rw [index, List.mem_append] at hm ⊢
            rw [hahead]
            exact hm.imp_right fun hm => List.mem_cons_of_mem n hm

omit [lib.Silent] in
theorem exists_due (cache : DnsCache lib) (now : Int) :
    ∃ due later, cache.index = due ++ later ∧ (∀ m ∈ due, m.expiry ≤ now) ∧ ∀ m ∈ later, now < m.expiry := by
  refine ⟨cache.index.takeWhile (·.expiry ≤ now), cache.index.dropWhile (·.expiry ≤ now),
    List.takeWhile_append_dropWhile.symm, fun m hm => by simpa using List.mem_takeWhile_imp hm, ?_⟩
  have hsorted := cache.sorted.sublist (List.dropWhile_sublist (p := (·.expiry ≤ now)))
  cases hdrop : cache.index.dropWhile (·.expiry ≤ now) with
  | nil => exact fun m hm => absurd hm List.not_mem_nil
  | cons d later =>
    rw [hdrop] at hsorted
    have hd : now < d.expiry := by
      have hhead := List.head?_dropWhile_not (·.expiry ≤ now) cache.index
      rw [hdrop] at hhead
      simpa using hhead
    intro m hm
    rcases List.mem_cons.mp hm with rfl | hm
    · exact hd
    · exact lt_of_lt_of_le hd ((List.pairwise_cons.mp hsorted).1 m hm)

end DnsPass

def FailedTtlKept (lib : DnsLibrary) (now : Int) (index : List DnsNode) : Prop :=
  ∀ n ∈ index, n.expiry ≤ now → now ≤ n.lastNeeded + defaultPurgeAge → lib.ptodn n.target = false →
    defaultFailedTtl ≤ n.ttl

def RefusedGoesBehind (lib : DnsLibrary) (now : Int) (index : List DnsNode) (i : Nat) : Prop :=
  ∀ n m, index[i]? = some n → index[i + 1]? = some m → RefusedAt lib now i n → now + n.ttl < m.expiry

namespace DnsPass

theorem clean_run (cache : DnsCache lib) {due later : List DnsNode} (hindex : cache.index = due ++ later)
    (hdue : ∀ m ∈ due, m.expiry ≤ now) (hlater : ∀ m ∈ later, now < m.expiry)
    (hfailed : FailedTtlKept lib now cache.index) {i : Nat} (hi : i ≤ due.length)
    (hrefused : ∀ j < i, RefusedGoesBehind lib now cache.index j) :
    Clean lib now due i (run lib now cache.index i) := by
  induction i with
  | zero => exact ⟨rfl, rfl, ⟨later, hindex, hlater⟩, by simp [run, start], by simp [run, start]⟩
  | succ i ih =>
    obtain ⟨n, hn⟩ : ∃ n, due[i]? = some n := ⟨due[i], List.getElem?_eq_getElem hi⟩
    have hlt : i < due.length := hi
    have hmem : n ∈ cache.index := hindex ▸ List.mem_append_left later (List.mem_of_getElem? hn)
    have hat : ∀ (j : Nat) (x : DnsNode), due[j]? = some x → cache.index[j]? = some x := by
      intro j x hx
      obtain ⟨hj, -⟩ := List.getElem?_eq_some_iff.mp hx
      rw [hindex, List.getElem?_append_left hj, hx]
    rw [run_succ]
    apply (ih hlt.le fun j hj => hrefused j (by omega)).step (sound_run cache i) hdue hn (cache.quiet n hmem)
    · exact hfailed n hmem (hdue n (List.mem_of_getElem? hn))
    · intro href m hm
      exact hrefused i (by omega) n m (hat i n hn) (hat (i + 1) m hm) href

theorem maintainsOnce_of (cache : DnsCache lib) (hfailed : FailedTtlKept lib now cache.index)
    (hrefused : ∀ i, RefusedGoesBehind lib now cache.index i) : MaintainsOnce lib now cache := by
  obtain ⟨due, later, hindex, hdue, hlater⟩ := exists_due cache now
  have hclean := clean_run cache hindex hdue hlater hfailed le_rfl fun j _ => hrefused j
  have hstep : run lib now cache.index (due.length + 1) =
    { run lib now cache.index due.length with ended := true } := by
    obtain ⟨rest, hahead, hrest⟩ := hclean.ahead
    rw [List.drop_length, List.nil_append] at hahead
    rw [run_succ]
    rcases step_cases lib now hclean.isOpen with ⟨-, hstep⟩ | ⟨n, rest', hahead', hle, -⟩
    · exact hstep
    · have hn := hrest n (by rw [← hahead, hahead']; exact List.mem_cons_self)
      omega
  have hdistinct : (due.map (·.target)).Nodup := by
    have h := cache.distinct
    rw [hindex, List.map_append] at h
    exact h.sublist (List.sublist_append_left _ _)
  refine ⟨due.length + 1, ?_⟩
  rw [hstep]
  refine ⟨rfl, ?_, hclean.failed⟩
  have hsub := hclean.fired
  rw [List.take_length] at hsub
  exact hdistinct.sublist hsub

theorem failedTtlKept_of (cache : DnsCache lib) (h : MaintainsOnce lib now cache) :
    FailedTtlKept lib now cache.index := by
  intro n hn hdue hneeded hname
  obtain ⟨h4, h6⟩ := cache.quiet n hn hname
  obtain ⟨turns, hended, -, hfailed⟩ := h
  have htrack : ∀ k, ([] ⊆ (run lib now cache.index k).fired ∧
    ∃ m ∈ (run lib now cache.index k).ahead, m = n) ∨
      Blanked now n.target n.ttl (run lib now cache.index k) := by
    intro k
    induction k with
    | zero => exact Or.inl ⟨List.nil_subset _, n, hn, rfl⟩
    | succ k ih =>
      rw [run_succ]
      apply track_step (Q := (· = n)) (R := Blanked now n.target n.ttl) _ _ (fun _ => Blanked.step hname) ih
      · rintro _ rfl
        exact hneeded
      · rintro q _ - rfl
        exact Blanked.visit_self hname q rfl h4 h6 hneeded rfl
  rcases htrack turns with ⟨-, m, hm, rfl⟩ | ⟨hfired, m, hm, htarget, -, -, -, hupdated, httl⟩
  · have := (sound_run cache turns).ends hended m hm
    omega
  · have hexpiry := hfailed m hm (htarget ▸ hname) (htarget ▸ hfired)
    rw [DnsNode.expiry, hupdated, httl] at hexpiry
    omega

theorem ahead_visit_refused (hsound : Sound now p) {rest : List DnsNode} {m : DnsNode}
    (hahead : p.ahead = n :: m :: rest) (href : RefusedAt lib now p.turn n) (hle : m.expiry ≤ now + n.ttl) :
    [n.target] ⊆ (step lib now p).fired ∧ ∃ x ∈ (step lib now p).ahead, x.target = n.target ∧ x.expiry ≤ now ∧
      now ≤ x.lastNeeded + defaultPurgeAge ∧ x.inflight4 = false := by
  have hopen : p.ended = false := by
    by_contra hended
    have hlate := hsound.ends (by simpa using hended) n (by simp [hahead])
    have hdue := href.due
    omega
  rcases step_cases lib now hopen with ⟨hend, -⟩ | ⟨n', rest', hahead', -, hcase⟩
  · rcases hend with hnil | ⟨n', rest', hahead', hlate⟩
    · rw [hahead] at hnil
      exact absurd hnil (List.cons_ne_nil _ _)
    · rw [hahead, List.cons.injEq] at hahead'
      have hdue := href.due
      rw [hahead'.1] at hdue
      omega
  · rw [hahead, List.cons.injEq] at hahead'
    obtain ⟨rfl, rfl⟩ := hahead'
    rcases hcase with ⟨hpurge, -⟩ | ⟨-, hstep⟩
    · rw [purges_eq_false href.needed] at hpurge
      exact Bool.noConfusion hpurge
    · obtain ⟨hmoved, hfired, hexpiry, h4⟩ :=
        @fireLookups_refused lib _ now { p with ahead := m :: rest } _ href.name
          href.idle4 href.idle6 href.refused
      have hbehind : ∀ x ∈ p.behind, x.expiry ≤ m.expiry := by
        intro x hx
        exact (List.pairwise_append.mp hsound.sorted).2.2 x hx m (by simp [hahead])
      rw [hstep]
      constructor
      · rw [visit_fired, if_pos hfired]
        simp
      · rw [visit_moved (q := { p with ahead := m :: rest }) hmoved, putBack, if_pos]
        · refine ⟨_, mem_insertIndex.mpr (Or.inl rfl), fireLookups_target, ?_, ?_, h4⟩
          · have httl := href.ttl
            omega
          · rw [fireLookups_lastNeeded]
            exact href.needed
        · refine ⟨fun x hx => ?_, m, rfl, ?_⟩
          · have hx' := hbehind x hx
            omega
          · omega

theorem refusedGoesBehind_of (cache : DnsCache lib) (h : MaintainsOnce lib now cache) (i : Nat) :
    RefusedGoesBehind lib now cache.index i := by
  have hfailed := failedTtlKept_of cache h
  obtain ⟨due, later, hindex, hdue, hlater⟩ := exists_due cache now
  obtain ⟨turns, hended, hnodup, -⟩ := h
  have hat : ∀ (j : Nat) (x : DnsNode), cache.index[j]? = some x → x.expiry ≤ now → due[j]? = some x := by
    intro j x hx hle
    rw [hindex, List.getElem?_append] at hx
    split_ifs at hx with hj
    · exact hx
    · have hlate := hlater x (List.mem_of_getElem? hx)
      omega
  induction i using Nat.strong_induction_on with
  | _ i ih =>
    intro n m hn hm href
    by_contra hnot
    have hmdue : m.expiry ≤ now := by
      have httl := href.ttl
      omega
    obtain ⟨hi, hgetn⟩ := List.getElem?_eq_some_iff.mp (hat i n hn href.due)
    obtain ⟨hi', hgetm⟩ := List.getElem?_eq_some_iff.mp (hat (i + 1) m hm hmdue)
    have hclean : ∀ k ≤ i, Clean lib now due k (run lib now cache.index k) := fun k hk =>
      clean_run cache hindex hdue hlater hfailed (by omega) fun j hj => ih j (by omega)
    obtain ⟨rest, hahead, -⟩ := (hclean i le_rfl).ahead
    rw [List.drop_eq_getElem_cons hi, List.drop_eq_getElem_cons hi', hgetn, hgetm, List.cons_append,
      List.cons_append] at hahead
    have hback := ahead_visit_refused (sound_run cache i) hahead
      (by rw [(hclean i le_rfl).turn]; exact href) (by omega)
    rw [← run_succ] at hback
    -- from this turn on the entry is ahead, or it has been visited twice
    have htrack : ∀ k, ([n.target] ⊆ (run lib now cache.index (i + 1 + k)).fired ∧
        ∃ x ∈ (run lib now cache.index (i + 1 + k)).ahead, x.target = n.target ∧ x.expiry ≤ now ∧
          now ≤ x.lastNeeded + defaultPurgeAge ∧ x.inflight4 = false) ∨
        2 ≤ (run lib now cache.index (i + 1 + k)).fired.count n.target := by
      intro k
      induction k with
      | zero => exact Or.inl hback
      | succ k ihk =>
        rw [← Nat.add_assoc, run_succ]
        apply track_step (R := fun p => 2 ≤ p.fired.count n.target) _ _
          (fun _ => count_fired_step n.target) ihk
        · exact fun x hx => hx.2.2.1
        · rintro q x hsub ⟨htarget, -, -, h4⟩
          have hfired : (fireLookups lib now q x).2.fired = true :=
            fireLookups_fired (by rw [htarget]; exact href.name) h4
          have hone : 0 < q.fired.count n.target := List.count_pos_iff.mpr (hsub (by simp))
          rw [visit_fired, if_pos hfired, htarget, List.count_append, List.count_singleton_self]
          omega
    have hturns : i < turns := by
      by_contra hle
      have hopen := (hclean turns (by omega)).isOpen
      rw [hended] at hopen
      exact Bool.noConfusion hopen
    obtain ⟨k, rfl⟩ : ∃ k, turns = i + 1 + k := ⟨turns - (i + 1), by omega⟩
    rcases htrack k with ⟨-, x, hx, -, hxdue, -⟩ | hcount
    · have hlate := (sound_run cache (i + 1 + k)).ends hended x hx
      omega
    · have hone := List.nodup_iff_count_le_one.mp hnodup n.target
      omega

end DnsPass

/-- When no query ends inside it, a pass ends with no name started or blanked twice, and every name that
cannot be made into a query due again after a failure's TTL, exactly when each such name that is due has
that TTL already and no entry that is refused with a TTL of zero comes before another that is due. -/
theorem maintains_once_iff (lib : DnsLibrary) [lib.Silent] (now : Int) (cache : DnsCache lib) :
    MaintainsOnce lib now cache ↔
      FailedTtlKept lib now cache.index ∧ ∀ i, RefusedGoesBehind lib now cache.index i := by
  constructor
  · intro h
    exact ⟨DnsPass.failedTtlKept_of cache h, DnsPass.refusedGoesBehind_of cache h⟩
  · rintro ⟨hfailed, hrefused⟩
    exact DnsPass.maintainsOnce_of cache hfailed hrefused

end

def shortNames : DnsLibrary := ⟨fun t => t.length ≤ 1, fun _ _ _ => true, fun _ _ x => x⟩

instance shortNames.silent : shortNames.Silent := ⟨fun _ _ _ => rfl⟩

def oneFailed : DnsCache shortNames where
  index := [⟨[97], 100, 50, 30, false, false, [], []⟩, ⟨[97, 98], 100, 40, 60, false, false, [], []⟩]
  sorted := by decide
  distinct := by decide
  quiet := by decide

theorem maintained_once_failed : MaintainsOnce shortNames 100 oneFailed := by
  refine (maintains_once_iff shortNames 100 oneFailed).mpr ⟨?_, fun i n m _ _ href => ?_⟩
  · unfold FailedTtlKept
    decide
  · exact Bool.noConfusion href.refused

def noQueries : DnsLibrary := ⟨fun _ => false, fun _ _ _ => true, fun _ _ x => x⟩

instance noQueries.silent : noQueries.Silent := ⟨fun _ _ _ => rfl⟩

def remindedNode (target : Bytes) (now : Int) : DnsNode := ⟨target, now, 0, 0, false, false, [], []⟩

def twoReminded : DnsCache noQueries where
  index := [remindedNode [97] 100, remindedNode [98] 100]
  sorted := by decide
  distinct := by decide
  quiet := by decide

theorem blanked_again :
    ¬ MaintainsOnce noQueries 100 twoReminded ∧
      (DnsPass.run noQueries 100 twoReminded.index 5).fired = [[97], [98], [97], [98], [97]] ∧
      (DnsPass.run noQueries 100 twoReminded.index 5).ended = false ∧
      (DnsPass.run noQueries 100 twoReminded.index 5).index.map (·.expiry) = [100, 100] := by
  refine ⟨fun h => ?_, by decide, by decide, by decide⟩
  have httl := DnsPass.failedTtlKept_of twoReminded h (remindedNode [97] 100)
    (by decide) (by decide) (by decide) rfl
  exact absurd httl (by decide)

end Reconnoiter
