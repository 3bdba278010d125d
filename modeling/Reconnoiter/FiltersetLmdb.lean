import Reconnoiter.Canonical

/-! Filtersets written to LMDB: the write of one buffer, and the sets of the REST
interface that write to LMDB first and load the filterset into memory after. -/

namespace Reconnoiter

def mdbMapFull : Int := -30792

def mdbBadValsize : Int := -30781

structure LmdbInstance (β : Type) where
  commits : List (Bytes × β)
  generation : Nat
  mapsize : Nat
  psize : Nat

structure WriteResults where
  txnBegin : Int
  cursorPut : Int
  txnCommit : Int
  otherResizes : Nat
deriving DecidableEq

inductive Flow where
  | returned (rc : Int)
  | continued
  | finished
deriving DecidableEq

section Write

variable {β : Type}

def LmdbInstance.get (inst : LmdbInstance β) (key : Bytes) : Option β :=
  (inst.commits.reverse.find? (fun c => c.1 = key)).map Prod.snd

def LmdbInstance.commit (inst : LmdbInstance β) (key : Bytes) (buffer : β) : LmdbInstance β :=
  { inst with commits := inst.commits ++ [(key, buffer)] }

def LmdbInstance.grow (inst : LmdbInstance β) : LmdbInstance β :=
  { inst with mapsize := inst.mapsize * 2 + inst.mapsize * 2 % inst.psize, generation := inst.generation + 1 }

def resizeInstance (inst : LmdbInstance β) (initialGeneration : Nat) : LmdbInstance β :=
  if initialGeneration ≠ inst.generation then inst else inst.grow

def LmdbInstance.mapFull (inst : LmdbInstance β) (r : WriteResults) : LmdbInstance β :=
  resizeInstance (LmdbInstance.grow^[r.otherResizes] inst) inst.generation

def makeFiltersetKey (name : Bytes) : Bytes :=
  let nameLen := name.length % 65536
  .ofNat (nameLen / 256) :: .ofNat (nameLen % 256) :: name.take nameLen

def WriteResults.put (r : WriteResults) (key : Bytes) : Int :=
  if 511 < key.length then mdbBadValsize else r.cursorPut

def writeOnce (key : Bytes) (buffer : β) (r : WriteResults) (inst : LmdbInstance β) : LmdbInstance β × Flow :=
  if r.txnBegin ≠ 0 then (inst, .returned r.txnBegin)
  else if r.put key ≠ 0 then
    if r.put key = mdbMapFull then (inst.mapFull r, .continued) else (inst, .returned (r.put key))
  else if r.txnCommit ≠ 0 then
    if r.txnCommit = mdbMapFull then (inst.mapFull r, .continued) else (inst, .returned r.txnCommit)
  else (inst.commit key buffer, .finished)

def writeFinalizedFb (filtersetName : Bytes) (buffer : β) (r : WriteResults) (inst : LmdbInstance β) :
    LmdbInstance β × Int :=
  match writeOnce (makeFiltersetKey filtersetName) buffer r inst with
  | (inst, .returned rc) => (inst, rc)
  -- The body stands in `do { .. } while(0)`: `continue` goes to the condition, which is false.
  | (inst, .continued) => (inst, 0)
  | (inst, .finished) => (inst, 0)

def WriteResults.MapFull (r : WriteResults) (key : Bytes) : Prop :=
  r.txnBegin = 0 ∧ (r.put key = mdbMapFull ∨ r.put key = 0 ∧ r.txnCommit = mdbMapFull)

@[simp] theorem commits_grow (inst : LmdbInstance β) : inst.grow.commits = inst.commits := rfl

theorem commits_iterate_grow (inst : LmdbInstance β) (n : Nat) :
    (LmdbInstance.grow^[n] inst).commits = inst.commits := by
  induction n with
  | zero => rfl
  | succ n ih => rw [Function.iterate_succ_apply', commits_grow, ih]

theorem commits_mapFull (inst : LmdbInstance β) (r : WriteResults) :
    (inst.mapFull r).commits = inst.commits := by
  unfold LmdbInstance.mapFull resizeInstance
  split_ifs
  · exact commits_iterate_grow inst r.otherResizes
  · rw [commits_grow, commits_iterate_grow]

theorem writeFinalizedFb_cases (name : Bytes) (buffer : β) (r : WriteResults) (inst : LmdbInstance β) :
    (∃ rc, rc ≠ 0 ∧ writeFinalizedFb name buffer r inst = (inst, rc) ∧
      ¬ r.MapFull (makeFiltersetKey name)) ∨
    (writeFinalizedFb name buffer r inst = (inst.mapFull r, 0) ∧ r.MapFull (makeFiltersetKey name)) ∨
    (writeFinalizedFb name buffer r inst = (inst.commit (makeFiltersetKey name) buffer, 0) ∧
      ¬ r.MapFull (makeFiltersetKey name)) := by
  have hfull : mdbMapFull ≠ 0 := by decide
  unfold writeFinalizedFb writeOnce WriteResults.MapFull
  by_cases hbegin : r.txnBegin = 0
  swap
  · exact .inl ⟨r.txnBegin, hbegin, by simp [hbegin], fun h => hbegin h.1⟩
  by_cases hput : r.put (makeFiltersetKey name) = 0
  · by_cases hcommit : r.txnCommit = 0
    · refine .inr (.inr ⟨by simp [hbegin, hput, hcommit], ?_⟩)
      rintro ⟨-, h | h⟩
      · exact hfull (h.symm.trans hput)
      · exact hfull (h.2.symm.trans hcommit)
    · by_cases hc : r.txnCommit = mdbMapFull
      · exact .inr (.inl ⟨by simp [hbegin, hput, hc, hfull], hbegin, .inr ⟨hput, hc⟩⟩)
      · refine .inl ⟨r.txnCommit, hcommit, by simp [hbegin, hput, hcommit, hc], ?_⟩
        rintro ⟨-, h | h⟩
        · exact hfull (h.symm.trans hput)
        · exact hc h.2
  · by_cases hp : r.put (makeFiltersetKey name) = mdbMapFull
    · exact .inr (.inl ⟨by simp [hbegin, hp, hfull], hbegin, .inl hp⟩)
    · refine .inl ⟨_, hput, by simp [hbegin, hput, hp], ?_⟩
      rintro ⟨-, h | h⟩
      · exact hp h
      · exact hput h.1

/-- A write that returns 0 has stored the buffer exactly when the environment did
not report a full map: the pass is not made again then, and 0 is returned. -/
theorem write_success_stored_iff (name : Bytes) (buffer : β) (r : WriteResults) (inst : LmdbInstance β) :
    ((writeFinalizedFb name buffer r inst).2 = 0 →
      (writeFinalizedFb name buffer r inst).1.commits = inst.commits ++ [(makeFiltersetKey name, buffer)]) ↔
      ¬ r.MapFull (makeFiltersetKey name) := by
  rcases writeFinalizedFb_cases name buffer r inst with ⟨rc, hrc, h, hfull⟩ | ⟨h, hfull⟩ | ⟨h, hfull⟩
  · rw [h]
    exact ⟨fun _ => hfull, fun _ h0 => absurd h0 hrc⟩
  · rw [h]
    refine ⟨fun hstored => ?_, fun hnot => absurd hfull hnot⟩
    have hlen := congrArg List.length ((commits_mapFull inst r).symm.trans (hstored rfl))
    simp at hlen
  · rw [h]
    exact ⟨fun _ => hfull, fun _ _ => rfl⟩

theorem write_success_stored_fails :
    (writeFinalizedFb [97] () ⟨0, mdbMapFull, 0, 0⟩ ⟨[], 0, 1, 1⟩).2 = 0 ∧
      (writeFinalizedFb [97] () ⟨0, mdbMapFull, 0, 0⟩ ⟨[], 0, 1, 1⟩).1.commits = [] := by
  decide

end Write

structure Filterset (ρ : Type) where
  name : Bytes
  seq : Int
  rules : List ρ
deriving DecidableEq

inductive SetChild (ρ : Type) where
  | rule (type : Option Bytes) (body : ρ)
  | seq (v : Int)
  | text
  | other

structure SetDoc (ρ : Type) where
  rootName : Bytes
  name : Option Bytes
  seq : Option Int
  children : List (SetChild ρ)

inductive SetError where
  | badRootNode
  | nameMismatch
  | noRules
  | unknownType
  | unknownAttribute
  | sequencing
  | write (rc : Int)
deriving DecidableEq

inductive SetOutcome where
  | error (e : SetError)
  | accepted
  | aborted
deriving DecidableEq

section Set

variable {ρ : Type}

def filtersetText : Bytes := [102, 105, 108, 116, 101, 114, 115, 101, 116]
def denyText : Bytes := [100, 101, 110, 121]
def acceptText : Bytes := [97, 99, 99, 101, 112, 116]
def allowText : Bytes := [97, 108, 108, 111, 119]
def skiptoText : Bytes := [115, 107, 105, 112, 116, 111, 58]
def addMeasurementTagText : Bytes :=
  [97, 100, 100, 95, 109, 101, 97, 115, 117, 114, 101, 109, 101, 110, 116, 95, 116, 97, 103, 58]

def knownType (type : Bytes) : Bool :=
  type = denyText || type = acceptText || type = allowText || skiptoText.isPrefixOf type ||
    addMeasurementTagText.isPrefixOf type

/-- The children in order; a seq element is unlinked and the walk goes on from the
node before it, which for a first child is the root and has nothing next to it. -/
def validateChildren : Bool → Int → Nat → List (SetChild ρ) → Except SetError (Int × Nat)
  | _, seq, rulecnt, [] => .ok (seq, rulecnt)
  | _, seq, rulecnt, .rule type _ :: rest =>
    if type.elim false knownType then validateChildren false seq (rulecnt + 1) rest
    else .error .unknownType
  | true, _, rulecnt, .seq v :: _ => .ok (v, rulecnt)
  | false, _, rulecnt, .seq v :: rest => validateChildren false v rulecnt rest
  | _, seq, rulecnt, .text :: rest => validateChildren false seq rulecnt rest
  | _, _, _, .other :: _ => .error .unknownAttribute

def SetChild.body? : SetChild ρ → Option ρ
  | .rule _ body => some body
  | .seq _ | .text | .other => none

/-- `noit_filter_validate_filter`: the filterset of the document, with the number its seq attribute has
in the end. -/
def validateFilter (doc : SetDoc ρ) (name : Bytes) : Except SetError (Filterset ρ) :=
  if doc.rootName ≠ filtersetText then .error .badRootNode
  else if doc.name.getD name ≠ name then .error .nameMismatch
  else if doc.children.isEmpty then .error .noRules
  else
    match validateChildren true (doc.seq.getD 0) 0 doc.children with
    | .error e => .error e
    | .ok (seq, rulecnt) =>
      if rulecnt = 0 then .error .noRules else .ok ⟨name, seq, doc.children.filterMap SetChild.body?⟩

structure FilterStores (ρ : Type) where
  lmdb : LmdbInstance (Filterset ρ)
  memory : Bytes → Option (Filterset ρ)

def FilterStores.stored (st : FilterStores ρ) (name : Bytes) : Option (Filterset ρ) :=
  st.lmdb.get (makeFiltersetKey name)

/-- `noit_filters_lmdb_get_seq`, with the stored number put in an `int` first. -/
def FilterStores.getSeq (st : FilterStores ρ) (name : Bytes) : Int :=
  match st.stored name with
  | none => 0
  | some set => if set.seq.bmod (2 ^ 32) < 0 then 0 else set.seq.bmod (2 ^ 32)

def compileAddLoadSet (memory : Bytes → Option (Filterset ρ)) (set : Filterset ρ) :
    Bytes → Option (Filterset ρ) :=
  match memory set.name with
  | some oldset => if oldset.seq ≥ set.seq then memory else Function.update memory set.name (some set)
  | none => Function.update memory set.name (some set)

/-- `noit_filter_compile_add`; none when the assertion on the number fails. -/
def compileAdd (memory : Bytes → Option (Filterset ρ)) (set : Filterset ρ) :
    Option (Bytes → Option (Filterset ρ)) :=
  if set.seq < 0 then none
  else some (compileAddLoadSet memory { set with name := set.name.take (maxMetricTaggedName - 1) })

structure SetRequest (ρ : Type) where
  name : Bytes
  doc : SetDoc ρ
  results : WriteResults

def setFilter (st : FilterStores ρ) (req : SetRequest ρ) : FilterStores ρ × SetOutcome :=
  let inDb := (st.stored req.name).isSome
  let oldSeq := if inDb then st.getSeq req.name else 0
  match validateFilter req.doc req.name with
  | .error e => (st, .error e)
  | .ok set =>
    if inDb ∧ oldSeq ≥ set.seq ∧ set.seq ≠ 0 then (st, .error .sequencing)
    else
      match writeFinalizedFb set.name set req.results st.lmdb with
      | (lmdb, rc) =>
        if rc ≠ 0 then ({ st with lmdb := lmdb }, .error (.write rc))
        else
          match compileAdd st.memory set with
          | none => ({ st with lmdb := lmdb }, .aborted)
          | some memory => (⟨lmdb, memory⟩, .accepted)

def FilterStores.Agree (st : FilterStores ρ) : Prop :=
  ∀ name, name.length < maxMetricTaggedName → st.memory name = st.stored name

def SetKeeps (st : FilterStores ρ) (req : SetRequest ρ) : Prop :=
  (∀ e, (setFilter st req).2 ≠ .error e) →
    (∃ new, (setFilter st req).1.stored req.name = some new ∧
      ∀ old, st.stored req.name = some old → old.seq ≤ new.seq) ∧
    (setFilter st req).1.Agree

def RunKeeps : FilterStores ρ → List (SetRequest ρ) → Prop
  | _, [] => True
  | st, req :: reqs => SetKeeps st req ∧ RunKeeps (setFilter st req).1 reqs

def FilterStores.empty (ρ : Type) : FilterStores ρ := ⟨⟨[], 0, 67108864, 4096⟩, fun _ => none⟩

def SetRequest.Fits (req : SetRequest ρ) : Prop :=
  req.name.length < maxMetricTaggedName ∧ ¬ req.results.MapFull (makeFiltersetKey req.name) ∧
    ∀ set, validateFilter req.doc req.name = .ok set → 0 < set.seq ∧ set.seq < 2 ^ 31

theorem get_commit (inst : LmdbInstance (Filterset ρ)) (key : Bytes) (set : Filterset ρ) (key' : Bytes) :
    (inst.commit key set).get key' = if key = key' then some set else inst.get key' := by
  unfold LmdbInstance.get LmdbInstance.commit
  rw [List.reverse_append, List.reverse_singleton, List.singleton_append, List.find?_cons]
  by_cases h : key = key'
  · simp [h]
  · simp [h]

theorem makeFiltersetKey_injective {name name' : Bytes} (h : name.length < maxMetricTaggedName)
    (h' : name'.length < maxMetricTaggedName) (hkey : makeFiltersetKey name = makeFiltersetKey name') :
    name = name' := by
  have htake : ∀ n : Bytes, n.length < maxMetricTaggedName → (makeFiltersetKey n).drop 2 = n := by
    intro n hn
    have hmod : n.length % 65536 = n.length := Nat.mod_eq_of_lt (by unfold maxMetricTaggedName at hn; omega)
    simp [makeFiltersetKey, hmod]
  rw [← htake name h, hkey, htake name' h']

theorem validateFilter_name {doc : SetDoc ρ} {name : Bytes} {set : Filterset ρ}
    (h : validateFilter doc name = .ok set) : set.name = name := by
  unfold validateFilter at h
  split_ifs at h
  split at h
  · cases h
  · split_ifs at h
    rw [← Except.ok.inj h]

theorem setFilter_cases (st : FilterStores ρ) (req : SetRequest ρ)
    (hfull : ¬ req.results.MapFull (makeFiltersetKey req.name)) :
    (∃ e, setFilter st req = (st, .error e)) ∨
    ∃ set, validateFilter req.doc req.name = .ok set ∧ set.name = req.name ∧
      ¬ ((st.stored req.name).isSome ∧ st.getSeq req.name ≥ set.seq ∧ set.seq ≠ 0) ∧
      ((set.seq < 0 ∧ setFilter st req =
          (⟨st.lmdb.commit (makeFiltersetKey req.name) set, st.memory⟩, .aborted)) ∨
        ∃ memory, compileAdd st.memory set = some memory ∧ setFilter st req =
          (⟨st.lmdb.commit (makeFiltersetKey req.name) set, memory⟩, .accepted)) := by
  unfold setFilter
  cases hval : validateFilter req.doc req.name with
  | error e => exact .inl ⟨e, rfl⟩
  | ok set =>
    have hname := validateFilter_name hval
    by_cases hseq : (st.stored req.name).isSome ∧ st.getSeq req.name ≥ set.seq ∧ set.seq ≠ 0
    · exact .inl ⟨.sequencing, by simp [hseq]⟩
    · have hold : ¬ ((st.stored req.name).isSome ∧
          (if (st.stored req.name).isSome then st.getSeq req.name else 0) ≥ set.seq ∧ set.seq ≠ 0) := by
        rintro ⟨hsome, hge, hne⟩
        rw [if_pos hsome] at hge
        exact hseq ⟨hsome, hge, hne⟩
      have hwrite := writeFinalizedFb_cases req.name set req.results st.lmdb
      simp only [hname, if_neg hold]
      rcases hwrite with ⟨rc, hrc, h, -⟩ | ⟨-, h⟩ | ⟨h, -⟩
      · exact .inl ⟨.write rc, by simp [h, hrc]⟩
      · exact absurd h hfull
      · refine .inr ⟨set, rfl, hname, hseq, ?_⟩
        rw [h]
        by_cases hneg : set.seq < 0
        · exact .inl ⟨hneg, by simp [compileAdd, hneg]⟩
        · exact .inr ⟨_, if_neg hneg, by simp [compileAdd, hneg]⟩

structure FilterStores.Inv (st : FilterStores ρ) : Prop where
  agree : st.Agree
  range : ∀ name set, st.stored name = some set → 0 < set.seq ∧ set.seq < 2 ^ 31

theorem getSeq_of_inv {st : FilterStores ρ} (hinv : st.Inv) {name : Bytes} {old : Filterset ρ}
    (h : st.stored name = some old) : st.getSeq name = old.seq := by
  have hrange := hinv.range name old h
  have hmod : old.seq.bmod (2 ^ 32) = old.seq := by
    apply Int.bmod_eq_of_le <;> omega
  simp only [FilterStores.getSeq, h, hmod]
  rw [if_neg (by omega)]

theorem compileAdd_update {st : FilterStores ρ} (hinv : st.Inv) {set : Filterset ρ}
    (hlen : set.name.length < maxMetricTaggedName) (hpos : 0 < set.seq)
    (hnew : ¬ ((st.stored set.name).isSome ∧ st.getSeq set.name ≥ set.seq ∧ set.seq ≠ 0)) :
    compileAdd st.memory set = some (Function.update st.memory set.name (some set)) := by
  have htake : set.name.take (maxMetricTaggedName - 1) = set.name :=
    List.take_of_length_le (by omega)
  rw [compileAdd, if_neg (by omega), htake, compileAddLoadSet]
  cases hold : st.stored set.name with
  | none => simp only [hinv.agree _ hlen, hold]
  | some old =>
    have hlt : ¬ old.seq ≥ set.seq := by
      intro hge
      rw [← getSeq_of_inv hinv hold] at hge
      exact hnew ⟨by rw [hold]; rfl, hge, by omega⟩
    simp only [hinv.agree _ hlen, hold, if_neg hlt]

theorem stored_commit (st : FilterStores ρ) (memory : Bytes → Option (Filterset ρ)) (name : Bytes)
    (set : Filterset ρ) (name' : Bytes) :
    (⟨st.lmdb.commit (makeFiltersetKey name) set, memory⟩ : FilterStores ρ).stored name' =
      if makeFiltersetKey name = makeFiltersetKey name' then some set else st.stored name' :=
  get_commit _ _ _ _

theorem agree_commit {st : FilterStores ρ} (h : st.Agree) {name : Bytes}
    (hlen : name.length < maxMetricTaggedName) (set : Filterset ρ) :
    (⟨st.lmdb.commit (makeFiltersetKey name) set, Function.update st.memory name (some set)⟩ :
      FilterStores ρ).Agree := by
  intro name' hlen'
  rw [stored_commit]
  by_cases hkey : makeFiltersetKey name = makeFiltersetKey name'
  · rw [if_pos hkey, makeFiltersetKey_injective hlen hlen' hkey]
    exact Function.update_self _ _ _
  · have hne : name' ≠ name := fun hn => hkey (by rw [hn])
    rw [if_neg hkey]
    exact (Function.update_of_ne hne _ _).trans (h name' hlen')

theorem setFilter_step {st : FilterStores ρ} (hinv : st.Inv) {req : SetRequest ρ} (hfits : req.Fits) :
    SetKeeps st req ∧ (setFilter st req).1.Inv := by
  obtain ⟨hlen, hfull, hseq⟩ := hfits
  rcases setFilter_cases st req hfull with ⟨e, he⟩ | ⟨set, hval, hname, hnew, hdone⟩
  · rw [SetKeeps, he]
    exact ⟨fun h => absurd rfl (h e), hinv⟩
  obtain ⟨hpos, hlt⟩ := hseq set hval
  rcases hdone with ⟨hneg, -⟩ | ⟨memory, hmem, hset⟩
  · omega
  rw [← hname] at hnew hlen hset
  rw [compileAdd_update hinv hlen hpos hnew] at hmem
  obtain rfl := Option.some.inj hmem
  have hstored := stored_commit st (Function.update st.memory set.name (some set)) set.name set
  have hagree := agree_commit hinv.agree hlen set
  rw [SetKeeps, hset]
  refine ⟨fun _ => ⟨⟨set, ?_, ?_⟩, hagree⟩, hagree, ?_⟩
  · rw [← hname, hstored, if_pos rfl]
  · intro old hold
    rw [← hname] at hold
    by_contra hlow
    refine hnew ⟨by rw [hold]; rfl, ?_, by omega⟩
    rw [getSeq_of_inv hinv hold]
    omega
  · intro name' set' h
    rw [hstored] at h
    by_cases hkey : makeFiltersetKey set.name = makeFiltersetKey name'
    · rw [if_pos hkey] at h
      rw [← Option.some.inj h]
      exact ⟨hpos, hlt⟩
    · rw [if_neg hkey] at h
      exact hinv.range name' set' h

theorem runKeeps_of_inv {st : FilterStores ρ} (hinv : st.Inv) {reqs : List (SetRequest ρ)}
    (hfits : ∀ req ∈ reqs, req.Fits) : RunKeeps st reqs := by
  induction reqs generalizing st with
  | nil => trivial
  | cons req reqs ih =>
    obtain ⟨hkeeps, hinv'⟩ := setFilter_step hinv (hfits req List.mem_cons_self)
    exact ⟨hkeeps, ih hinv' (fun r hr => hfits r (List.mem_cons_of_mem _ hr))⟩

/-- In every sequence of sets whose numbers are positive and fit an `int`, with
names that fit the buffer and no full map, no stored number falls and the stores
agree after every accepted set. -/
theorem filterset_sets_keep (reqs : List (SetRequest ρ)) (hfits : ∀ req ∈ reqs, req.Fits) :
    RunKeeps (FilterStores.empty ρ) reqs := by
  apply runKeeps_of_inv _ hfits
  exact ⟨fun _ _ => rfl, fun name set h => absurd h (by simp [FilterStores.stored, FilterStores.empty,
    LmdbInstance.get])⟩

def aSet (seq : Int) (rule : Nat) : SetRequest Nat :=
  ⟨[97], ⟨filtersetText, none, some seq, [.rule (some denyText) rule]⟩, ⟨0, 0, 0, 0⟩⟩

theorem validateFilter_aSet (seq : Int) (rule : Nat) :
    validateFilter (aSet seq rule).doc (aSet seq rule).name = .ok ⟨[97], seq, [rule]⟩ := rfl

theorem filterset_sets_keep_two : RunKeeps (FilterStores.empty Nat) [aSet 1 0, aSet 2 1] := by
  apply filterset_sets_keep
  intro req hreq
  have hfits : ∀ seq rule, 0 < seq → seq < 2 ^ 31 → (aSet seq rule).Fits := by
    intro seq rule hpos hlt
    have hfull : ¬ (aSet seq rule).results.MapFull (makeFiltersetKey (aSet seq rule).name) := by
      simp [aSet, WriteResults.MapFull, WriteResults.put, mdbMapFull, makeFiltersetKey]
    refine ⟨by simp [aSet, maxMetricTaggedName], hfull, ?_⟩
    intro set hset
    rw [validateFilter_aSet] at hset
    rw [← Except.ok.inj hset]
    exact ⟨hpos, hlt⟩
  simp only [List.mem_cons, List.not_mem_nil, or_false] at hreq
  rcases hreq with rfl | rfl
  · exact hfits 1 0 (by decide) (by decide)
  · exact hfits 2 1 (by decide) (by decide)

theorem not_runKeeps_of_lower {first second : SetRequest Nat} {old new : Filterset Nat}
    (hacc : (setFilter (setFilter (FilterStores.empty Nat) first).1 second).2 = .accepted)
    (hold : (setFilter (FilterStores.empty Nat) first).1.stored second.name = some old)
    (hnew : (setFilter (setFilter (FilterStores.empty Nat) first).1 second).1.stored second.name = some new)
    (hlow : new.seq < old.seq) : ¬ RunKeeps (FilterStores.empty Nat) [first, second] := by
  rintro ⟨-, hkeeps, -⟩
  obtain ⟨⟨new', hnew', hle⟩, -⟩ := hkeeps (by rw [hacc]; simp)
  rw [hnew] at hnew'
  rw [← Option.some.inj hnew'] at hle
  have hge := hle old hold
  omega

theorem filterset_sets_keep_fails :
    ¬ RunKeeps (FilterStores.empty Nat) [aSet 5 0, aSet 0 1] ∧
      ¬ RunKeeps (FilterStores.empty Nat) [aSet (2 ^ 32 + 5) 0, aSet 6 1] := by
  constructor
  · exact @not_runKeeps_of_lower _ _ ⟨[97], 5, [0]⟩ ⟨[97], 0, [1]⟩ (by decide) (by decide) (by decide)
      (by decide)
  · exact @not_runKeeps_of_lower _ _ ⟨[97], 2 ^ 32 + 5, [0]⟩ ⟨[97], 6, [1]⟩ (by decide) (by decide)
      (by decide) (by decide)

end Set

end Reconnoiter
