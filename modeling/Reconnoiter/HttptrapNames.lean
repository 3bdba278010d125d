import Reconnoiter.HttptrapAgreement

/-! Every scalar of a payload is recorded under the name of its place. -/

namespace Reconnoiter

def ordinaryKey (key : Bytes) : Bool :=
  key.take maxMetricTaggedName ∉ RestJsonPayload.typeKeys &&
    RestJsonPayload.specialKey (key.take maxMetricTaggedName) = none

mutual

def Json.ordinary : Nat → Json → Bool
  | _, .leaf _ => true
  | level, .array items => level < maxDepth && Json.ordinaryItems (level + 1) items
  | level, .object members => level < maxDepth && Json.ordinaryMembers (level + 1) members

def Json.ordinaryItems : Nat → List Json → Bool
  | _, [] => true
  | level, j :: items => j.ordinary level && Json.ordinaryItems level items

def Json.ordinaryMembers : Nat → List (Bytes × Json) → Bool
  | _, [] => true
  | level, (key, j) :: members => ordinaryKey key && j.ordinary level && Json.ordinaryMembers level members

end

mutual

def Json.scalars (env : TrapEnv) : Option Bytes → Json → List (Bytes × Scalar)
  | some key, .leaf value => [(key, value)]
  | none, .leaf _ => []
  | up, .array items => Json.itemScalars env up 0 items
  | up, .object members => Json.memberScalars env up members

def Json.itemScalars (env : TrapEnv) : Option Bytes → Nat → List Json → List (Bytes × Scalar)
  | _, _, [] => []
  | up, i, j :: items =>
    j.scalars env (some (env.childKey up (decimal i))) ++ Json.itemScalars env up (i + 1) items

def Json.memberScalars (env : TrapEnv) : Option Bytes → List (Bytes × Json) → List (Bytes × Scalar)
  | _, [] => []
  | up, (key, j) :: members =>
    j.scalars env (some (env.childKey up (key.take maxMetricTaggedName))) ++ Json.memberScalars env up members

end

namespace RestJsonPayload

variable {env : TrapEnv} {json json' json'' : RestJsonPayload}

def currentKey (json : RestJsonPayload) : Option (Option Bytes) :=
  if json.level = 0 then some none else (json.keys (json.level - 1)).map some

def Closed (json : RestJsonPayload) : Prop := ∀ i, json.level ≤ i → json.arrayDepth i = 0

structure Ready (json : RestJsonPayload) : Prop where
  special : json.lastSpecialKey = none
  closed : json.Closed

structure Kept (json json' : RestJsonPayload) : Prop where
  level : json'.level = json.level
  keys : ∀ i, i + 1 < json.level → json'.keys i = json.keys i
  depths : ∀ i, i + 1 < json.level → json'.arrayDepth i = json.arrayDepth i

theorem Kept.trans (h : Kept json json') (h' : Kept json' json'') : Kept json json'' where
  level := h'.level.trans h.level
  keys i hi := (h'.keys i (h.level ▸ hi)).trans (h.keys i hi)
  depths i hi := (h'.depths i (h.level ▸ hi)).trans (h.depths i hi)

theorem Kept.parentKey (h : Kept json json') : json'.parentKey = json.parentKey := by
  unfold RestJsonPayload.parentKey
  rw [h.level]
  split_ifs with hle
  · rfl
  · rw [h.keys _ (by omega)]

theorem setArrayKey_level (h : json.setArrayKey env = some json') : json'.level = json.level := by
  unfold setArrayKey at h
  split_ifs at h
  · obtain ⟨up, -, rfl⟩ := Option.map_eq_some_iff.mp h
    rfl
  · rw [Option.some.inj h]

def named (json : RestJsonPayload) (key : Bytes) (n : Nat) : RestJsonPayload :=
  { json.setKey (some key) with arrayDepth := Function.update json.arrayDepth (json.level - 1) n }

theorem Closed.named (h : json.Closed) (hlevel : 0 < json.level) (key : Bytes) (n : Nat) :
    (json.named key n).Closed ∧ Kept json (json.named key n) ∧
    (json.named key n).currentKey = some (some key) := by
  refine ⟨fun i hi => ?_, ⟨rfl, fun i hi => ?_, fun i hi => ?_⟩, ?_⟩
  · have hle : json.level ≤ i := hi
    exact (Function.update_of_ne (by omega) _ _).trans (h i hle)
  · exact Function.update_of_ne (by omega) _ _
  · exact Function.update_of_ne (by omega) _ _
  · have hkey : (json.named key n).keys ((json.named key n).level - 1) = some key :=
      Function.update_self _ _ _
    rw [currentKey, if_neg (show (json.named key n).level ≠ 0 from hlevel.ne'), hkey]
    rfl

theorem setArrayKey_array {up : Option Bytes} {n : Nat} (hlevel : 0 < json.level)
    (hup : json.parentKey = some up) (hn : json.arrayDepth (json.level - 1) = n + 1) :
    json.setArrayKey env = some (json.named (env.childKey up (decimal n)) (n + 2)) := by
  rw [setArrayKey, if_pos ⟨hlevel, by omega⟩, hup, hn]
  rfl

theorem step_mapKey {up : Option Bytes} {key : Bytes} (hready : json.Ready) (hup : json.parentKey = some up)
    (hzero : json.arrayDepth (json.level - 1) = 0) (hkey : ordinaryKey key = true) :
    json.step env (.mapKey key) =
      some (json.named (env.childKey up (key.take maxMetricTaggedName)) 0, none) := by
  rw [ordinaryKey, Bool.and_eq_true, decide_eq_true_iff, decide_eq_true_iff] at hkey
  have hsame : Function.update json.arrayDepth (json.level - 1) 0 = json.arrayDepth := by
    rw [← hzero, Function.update_eq_self]
  simp only [step, cbMapKey, if_neg hkey.1, hkey.2, hup, Option.map_some, named, hsame, setKey]
  rw [hready.special]

theorem setArrayKey_map (h : json.arrayDepth (json.level - 1) = 0) : json.setArrayKey env = some json := by
  rw [setArrayKey, if_neg (by omega)]

theorem step_leaf {key : Bytes} (hset : json.setArrayKey env = some json') (hlevel : json.level ≠ 0)
    (hkey : json'.keys (json'.level - 1) = some key) (hspecial : json.lastSpecialKey = none)
    (hspecial' : json'.lastSpecialKey = none) (value : Scalar) :
    json.step env (.leaf value) =
      some (json'.setKey (some (env.trackFiltered key)), some (env.recordLeaf key value)) := by
  have hkeep : ∀ leaf, json'.keep env leaf =
      (json'.setKey (some (env.trackFiltered key)), some (env.recordLeaf key leaf)) := by
    intro leaf
    simp only [keep, hkey]
  cases value with
  | null => simp [step, cbNull, hlevel, hset, hspecial', hkeep]
  | boolean value => simp [step, cbBoolean, hlevel, hset, hspecial', hkeep]
  | number value => simp [step, cbNumber, hlevel, hset, hspecial', hkeep]
  | string value => simp [step, cbString, hlevel, hspecial, hset, hspecial', hkeep]

theorem parse_cons {e : JsonEvent} {es : List JsonEvent} {recorded : Option Recording}
    (h : json.step env e = some (json', recorded)) :
    json.parse env (e :: es) = ((json'.parse env es).1, recorded.toList ++ (json'.parse env es).2) := by
  rw [parse, h]

def enter (json : RestJsonPayload) (n : Nat) : RestJsonPayload :=
  { json with
    level := json.level + 1
    arrayDepth := Function.update json.arrayDepth json.level n }

theorem enter_parentKey (json : RestJsonPayload) (n : Nat) : (json.enter n).parentKey = json.currentKey := by
  unfold parentKey currentKey enter
  cases json.level with
  | zero => rfl
  | succ level => simp

theorem Closed.enter (h : json.Closed) (n : Nat) : (json.enter n).Closed := by
  intro i hi
  have hle : json.level + 1 ≤ i := hi
  exact (Function.update_of_ne (by omega) _ _).trans (h i (by omega))

theorem Ready.enter (h : json.Ready) (n : Nat) : (json.enter n).Ready := ⟨h.special, h.closed.enter n⟩

theorem cbStartArray_enter (hset : json.setArrayKey env = some json') (hclosed : json'.Closed)
    (hdepth : json'.level < maxDepth) : json.cbStartArray env = some (json'.enter 1) := by
  simp [cbStartArray, hset, not_le.mpr hdepth, hclosed _ (le_refl _), enter]

theorem cbStartMap_enter (hset : json.setArrayKey env = some json') (hclosed : json'.Closed)
    (hdepth : json'.level < maxDepth) : json.cbStartMap env = some (json'.enter 0) := by
  have hsame : Function.update json'.arrayDepth json'.level 0 = json'.arrayDepth := by
    rw [← hclosed json'.level (le_refl _), Function.update_eq_self]
  simp [cbStartMap, hset, not_le.mpr hdepth, enter, hsame]

theorem Kept.leave {n : Nat} (h : Kept (json.enter n) json') (hclosed : json'.Closed) :
    Kept json json'.cbEndArray ∧ json'.cbEndArray.Closed ∧
      ∀ i, i < json.level → json'.cbEndArray.arrayDepth i = json.arrayDepth i := by
  have hlevel : json'.level = json.level + 1 := h.level
  have hdepths : ∀ i, i < json.level → json'.cbEndArray.arrayDepth i = json.arrayDepth i := by
    intro i hi
    have hin : i + 1 < (json.enter n).level := Nat.succ_lt_succ hi
    calc json'.cbEndArray.arrayDepth i = json'.arrayDepth i := Function.update_of_ne (by omega) _ _
      _ = (json.enter n).arrayDepth i := h.depths i hin
      _ = json.arrayDepth i := Function.update_of_ne (by omega) _ _
  refine ⟨⟨?_, fun i hi => ?_, fun i hi => hdepths i (by omega)⟩, fun i hi => ?_, hdepths⟩
  · rw [cbEndArray, hlevel]
    rfl
  · exact h.keys i (show i + 1 < json.level + 1 by omega)
  · have hle : json'.level - 1 ≤ i := hi
    by_cases heq : i = json'.level - 1
    · rw [heq]
      exact Function.update_self _ _ _
    · exact (Function.update_of_ne heq _ _).trans (hclosed i (by omega))

theorem cbEndMap_eq (h : json.arrayDepth (json.level - 1) = 0) : json.cbEndMap = json.cbEndArray := by
  rw [cbEndMap, cbEndArray, ← h, Function.update_eq_self]

def recordings (env : TrapEnv) (scalars : List (Bytes × Scalar)) : List Recording :=
  scalars.map fun scalar => env.recordLeaf scalar.1 scalar.2

theorem recordings_append (a b : List (Bytes × Scalar)) :
    recordings env (a ++ b) = recordings env a ++ recordings env b := List.map_append

mutual

theorem parse_value (env : TrapEnv) : (j : Json) → ∀ {json json' : RestJsonPayload} {up : Option Bytes},
    json.setArrayKey env = some json' → json.lastSpecialKey = none → json'.Ready →
      json'.currentKey = some up →
    j.ordinary json'.level = true → (json.level = 0 → ∀ value, j ≠ .leaf value) →
    ∃ done, json.parse env j.events = (some done, recordings env (j.scalars env up)) ∧ Kept json' done ∧
      done.Ready ∧ ∀ i, i < json'.level → done.arrayDepth i = json'.arrayDepth i
  | .leaf value, json, json', up, hset, hspecial, hready, hup, _, hleaf => by
    have hne : json.level ≠ 0 := fun h0 => hleaf h0 value rfl
    have hne' : json'.level ≠ 0 := by rwa [setArrayKey_level hset]
    rw [currentKey, if_neg hne'] at hup
    obtain ⟨key, hkey, rfl⟩ := Option.map_eq_some_iff.mp hup
    refine ⟨json'.setKey (some (env.trackFiltered key)), ?_, ⟨rfl, fun i hi => ?_, fun _ _ => rfl⟩,
      ⟨hready.special, hready.closed⟩, fun _ _ => rfl⟩
    · rw [Json.events, parse_cons (step_leaf hset hne hkey hspecial hready.special value), Json.scalars]
      rfl
    · exact Function.update_of_ne (by omega) _ _
  | .array items, json, json', up, hset, _, hready, hup, hord, _ => by
    rw [Json.ordinary, Bool.and_eq_true, decide_eq_true_iff] at hord
    obtain ⟨hdepth, hitems⟩ := hord
    have hnext : (json'.enter 1).arrayDepth ((json'.enter 1).level - 1) = 0 + 1 := Function.update_self _ _ _
    obtain ⟨done, hparse, hkept, hdone⟩ := parse_items env items (Nat.succ_pos json'.level)
      (hready.enter 1) ((json'.enter_parentKey 1).trans hup) hnext hitems
    obtain ⟨hkept', hclosed, hdepths⟩ := hkept.leave hdone.closed
    have hstart : json.step env .startArray = some (json'.enter 1, none) := by
      rw [step, cbStartArray_enter hset hready.closed hdepth]
      rfl
    refine ⟨done.cbEndArray, ?_, hkept', ⟨hdone.special, hclosed⟩, hdepths⟩
    rw [Json.events, parse_cons hstart, parse_append _ _ hparse, Json.scalars]
    simp [parse, step]
  | .object members, json, json', up, hset, _, hready, hup, hord, _ => by
    rw [Json.ordinary, Bool.and_eq_true, decide_eq_true_iff] at hord
    obtain ⟨hdepth, hmembers⟩ := hord
    have hzero : (json'.enter 0).arrayDepth ((json'.enter 0).level - 1) = 0 := Function.update_self _ _ _
    obtain ⟨done, hparse, hkept, hdone, hend⟩ := parse_members env members (Nat.succ_pos json'.level)
      (hready.enter 0) ((json'.enter_parentKey 0).trans hup) hzero hmembers
    obtain ⟨hkept', hclosed, hdepths⟩ := hkept.leave hdone.closed
    have hstart : json.step env .startMap = some (json'.enter 0, none) := by
      rw [step, cbStartMap_enter hset hready.closed hdepth]
      rfl
    refine ⟨done.cbEndArray, ?_, hkept', ⟨hdone.special, hclosed⟩, hdepths⟩
    rw [Json.events, parse_cons hstart, parse_append _ _ hparse, Json.scalars]
    have hlevel : done.level = json'.level + 1 := hkept.level
    have hmap : done.cbEndMap = done.cbEndArray := cbEndMap_eq (by rw [hlevel]; exact hend)
    simp [parse, step, hmap]

theorem parse_items (env : TrapEnv) :
    (items : List Json) → ∀ {json : RestJsonPayload} {up : Option Bytes} {n : Nat},
    0 < json.level → json.Ready → json.parentKey = some up → json.arrayDepth (json.level - 1) = n + 1 →
    Json.ordinaryItems json.level items = true →
    ∃ done, json.parse env (Json.itemEvents items) =
        (some done, recordings env (Json.itemScalars env up n items)) ∧ Kept json done ∧ done.Ready
  | [], json, up, n, _, hready, _, _, _ => ⟨json, rfl, ⟨rfl, fun _ _ => rfl, fun _ _ => rfl⟩, hready⟩
  | j :: items, json, up, n, hlevel, hready, hup, hn, hord => by
    rw [Json.ordinaryItems, Bool.and_eq_true] at hord
    have hset := @setArrayKey_array env json up n hlevel hup hn
    obtain ⟨hclosed, hkept, hcurrent⟩ := hready.closed.named hlevel (env.childKey up (decimal n)) (n + 2)
    have hready' : (json.named (env.childKey up (decimal n)) (n + 2)).Ready := ⟨hready.special, hclosed⟩
    obtain ⟨next, hparse, hkept', hnext, hdepths⟩ :=
      parse_value env j hset hready.special hready' hcurrent hord.1
      (fun h0 => absurd h0 hlevel.ne')
    have hall := hkept.trans hkept'
    have hn' : next.arrayDepth (next.level - 1) = n + 1 + 1 := by
      rw [hall.level]
      exact (hdepths _ (Nat.sub_lt hlevel Nat.one_pos)).trans (Function.update_self _ _ _)
    obtain ⟨done, hrest, hkept'', hdone⟩ := parse_items env items (hall.level ▸ hlevel) hnext
      (hall.parentKey.trans hup) hn' (hall.level ▸ hord.2)
    refine ⟨done, ?_, hall.trans hkept'', hdone⟩
    rw [Json.itemEvents, parse_append _ _ hparse, hrest, Json.itemScalars, recordings_append]

theorem parse_members (env : TrapEnv) : (members : List (Bytes × Json)) →
    ∀ {json : RestJsonPayload} {up : Option Bytes},
    0 < json.level → json.Ready → json.parentKey = some up → json.arrayDepth (json.level - 1) = 0 →
    Json.ordinaryMembers json.level members = true →
    ∃ done, json.parse env (Json.memberEvents members) =
        (some done, recordings env (Json.memberScalars env up members)) ∧ Kept json done ∧ done.Ready ∧
      done.arrayDepth (json.level - 1) = 0
  | [], json, up, _, hready, _, hzero, _ => ⟨json, rfl, ⟨rfl, fun _ _ => rfl, fun _ _ => rfl⟩, hready, hzero⟩
  | (key, j) :: members, json, up, hlevel, hready, hup, hzero, hord => by
    rw [Json.ordinaryMembers, Bool.and_eq_true, Bool.and_eq_true] at hord
    obtain ⟨⟨hkey, hj⟩, hmembers⟩ := hord
    have hname := @step_mapKey env json up key hready hup hzero hkey
    obtain ⟨hclosed, hkept, hcurrent⟩ :=
      hready.closed.named hlevel (env.childKey up (key.take maxMetricTaggedName)) 0
    have hready' : (json.named (env.childKey up (key.take maxMetricTaggedName)) 0).Ready :=
      ⟨hready.special, hclosed⟩
    have hzero' : (json.named (env.childKey up (key.take maxMetricTaggedName)) 0).arrayDepth
      (json.level - 1) = 0 :=
      Function.update_self _ _ _
    obtain ⟨next, hparse, hkept', hnext, hdepths⟩ :=
      parse_value env j (setArrayKey_map hzero') hready'.special
      hready' hcurrent hj (fun h0 => absurd h0 hlevel.ne')
    have hall := hkept.trans hkept'
    have hnextZero : next.arrayDepth (next.level - 1) = 0 := by
      rw [hall.level]
      exact (hdepths _ (Nat.sub_lt hlevel Nat.one_pos)).trans hzero'
    obtain ⟨done, hrest, hkept'', hdone, hend⟩ := parse_members env members (hall.level ▸ hlevel) hnext
      (hall.parentKey.trans hup) hnextZero (hall.level ▸ hmembers)
    refine ⟨done, ?_, hall.trans hkept'', hdone, hall.level ▸ hend⟩
    rw [Json.memberEvents, parse_cons hname, parse_append _ _ hparse, hrest,
      Json.memberScalars, recordings_append]
    rfl

end

end RestJsonPayload

def Json.recorded (env : TrapEnv) (j : Json) : List Recording := (RestJsonPayload.start.parse env j.events).2

theorem recorded_ordinary (env : TrapEnv) {j : Json} (h : j.ordinary 0 = true) :
    j.recorded env = RestJsonPayload.recordings env (j.scalars env none) := by
  have hready : RestJsonPayload.start.Ready := ⟨rfl, fun _ _ => rfl⟩
  by_cases hleaf : ∃ value, j = .leaf value
  · obtain ⟨value, rfl⟩ := hleaf
    cases value <;> rfl
  · have hset : RestJsonPayload.start.setArrayKey env = some .start := rfl
    obtain ⟨done, hparse, -⟩ := RestJsonPayload.parse_value env j hset rfl hready rfl h
      (fun _ value hj => hleaf ⟨value, hj⟩)
    rw [Json.recorded, hparse]

theorem recordLeaf_key_leaf (env : TrapEnv) (key : Bytes) (leaf : Scalar) :
    (env.recordLeaf key leaf).key = key ∧ (env.recordLeaf key leaf).leaf = leaf := by
  cases leaf <;> exact ⟨rfl, rfl⟩

/-- For every payload: what is logged of a scalar is what the statistics have of it exactly
when the scalar is logged as it is set; and with ordinary keys every scalar is recorded, under
the name of its place. -/
theorem immediate_log_agrees_iff (env : TrapEnv) (j : Json) :
    (∀ r ∈ j.recorded env, r.leaf.Short → (r.Agrees ↔ env.Consistent r.key r.leaf)) ∧
      (j.ordinary 0 = true → j.recorded env = RestJsonPayload.recordings env (j.scalars env none)) := by
  refine ⟨fun r hr hshort => ?_, recorded_ordinary env⟩
  obtain ⟨key, leaf, rfl⟩ := RestJsonPayload.parse_recorded hr
  obtain ⟨hkey, hleaf⟩ := recordLeaf_key_leaf env key leaf
  rw [hleaf] at hshort
  rw [hkey, hleaf]
  exact recordScalar_agrees_iff env key hshort

def plainTrap : TrapEnv where
  strtod := ⟨⟨fun _ => [0, 0, 0, 0, 0, 0, 0, 0]⟩, fun _ => false, fun _ => rfl⟩
  textSizeLimit := 512
  canonicalize := fun name => some name
  tagset := none
  taken := fun _ => false
  delimiter := 96
  expanded := fun _ => none

/-- `{"a":[-5,null]}` -/
def numbersPayload : Json := .object [([97], .array [.leaf (.number [45, 53]), .leaf .null])]

theorem numbers_logged_as_set : (numbersPayload.recorded plainTrap).length = 2 ∧
    ∀ r ∈ numbersPayload.recorded plainTrap, r.Agrees := by
  obtain ⟨hagrees, hrecorded⟩ := immediate_log_agrees_iff plainTrap numbersPayload
  have hscalars : numbersPayload.scalars plainTrap none =
    [([97, 96, 48], .number [45, 53]), ([97, 96, 49], .null)] := by
    decide +kernel
  have hlist := hrecorded (by decide +kernel)
  rw [hscalars] at hlist
  refine ⟨by rw [hlist]; rfl, fun r hr => ?_⟩
  have hcases := hr
  rw [hlist] at hcases
  rcases List.mem_cons.mp hcases with rfl | hcases
  · have hnumber : (guessType plainTrap.strtod (cString ([45, 53].take 127))).1 ≠ .string := by decide +kernel
    exact (hagrees _ hr trivial).mpr (.inr ⟨by decide, hnumber⟩)
  · obtain rfl := List.mem_singleton.mp hcases
    exact (hagrees _ hr trivial).mpr (.inr ⟨by decide, trivial⟩)

/-- `{"u":true,"s":"abc","n":1e5}` -/
def mixedPayload : Json :=
  .object [([117], .leaf (.boolean true)), ([115], .leaf (.string [97, 98, 99])),
    ([110], .leaf (.number [49, 101, 53]))]

theorem mixed_logged_empty :
    (mixedPayload.recorded plainTrap).map (fun r => (r.stats, r.immediate)) =
      [(some ⟨[117], .int32, some [1, 0, 0, 0]⟩, some ⟨[117], .int32, none⟩),
        (some ⟨[115], .string, some [97, 98, 99]⟩, some ⟨[115], .string, none⟩),
        (some ⟨[110], .string, some [49, 101, 53]⟩, some ⟨[110], .string, none⟩)] := by
  decide +kernel

end Reconnoiter
