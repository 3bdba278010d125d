import Reconnoiter.Bytes

/-! Sixteen-byte identifiers and their text form. -/

namespace Reconnoiter

abbrev Uuid := List.Vector UInt8 16

def Uuid.zero : Uuid := List.Vector.replicate 16 0

/-- A reader and a writer of the text form; what a reader does with the case of
the digits is left open. -/
structure UuidText where
  parse : Bytes → Option Uuid
  unparseLower : Uuid → Bytes
  length_unparseLower : ∀ u, (unparseLower u).length = 36
  parse_unparseLower : ∀ u, parse (unparseLower u) = some u
  length_of_parse : ∀ s u, parse s = some u → s.length = 36

def hexChar (i : Nat) : UInt8 := if i < 10 then .ofNat (48 + i) else .ofNat (87 + i)

def hexVal (c : UInt8) : Option Nat :=
  if 48 ≤ c && c ≤ 57 then some (c.toNat - 48)
  else if 97 ≤ c && c ≤ 102 then some (c.toNat - 87)
  else if 65 ≤ c && c ≤ 70 then some (c.toNat - 55) else none

def hexByte (x : UInt8) : Bytes := [hexChar (x.toNat / 16), hexChar (x.toNat % 16)]

def parseHex : Bytes → Option Bytes
  | [] => some []
  | [_] => none
  | p :: q :: rest =>
    match hexVal p, hexVal q, parseHex rest with
    | some i, some j, some l => some (.ofNat (i * 16 + j) :: l)
    | _, _, _ => none

theorem hexVal_hexChar {i : Nat} (h : i < 16) : hexVal (hexChar i) = some i := by
  have hall : ∀ j : Fin 16, hexVal (hexChar j.val) = some j.val := by decide
  exact hall ⟨i, h⟩

theorem parseHex_hexByte (l : Bytes) : parseHex (l.flatMap hexByte) = some l := by
  induction l with
  | nil => rfl
  | cons x l ih =>
    have hx := x.toNat_lt
    simp only [List.flatMap_cons, hexByte, List.cons_append, List.nil_append, parseHex,
      hexVal_hexChar (show x.toNat / 16 < 16 by omega),
      hexVal_hexChar (show x.toNat % 16 < 16 by omega), ih]
    rw [show x.toNat / 16 * 16 + x.toNat % 16 = x.toNat by omega, UInt8.ofNat_toNat]

theorem length_flatMap_hexByte (l : Bytes) : (l.flatMap hexByte).length = 2 * l.length := by
  induction l with
  | nil => rfl
  | cons x l ih =>
    simp only [List.flatMap_cons, List.length_append, ih, hexByte, List.length_cons, List.length_nil]
    omega

theorem le_of_mem_hexBytes {l : Bytes} {c : UInt8} (h : c ∈ l.flatMap hexByte) : 48 ≤ c := by
  have hall : ∀ i : Fin 16, 48 ≤ hexChar i.val := by decide
  obtain ⟨x, -, hx⟩ := List.mem_flatMap.mp h
  have hlt := x.toNat_lt
  rcases List.mem_cons.mp hx with rfl | hx
  · exact hall ⟨x.toNat / 16, by omega⟩
  · rw [List.mem_singleton.mp hx]
    exact hall ⟨x.toNat % 16, by omega⟩

def hyphenate : List Nat → Bytes → Bytes
  | [], h => h
  | n :: groups, h => h.take n ++ 45 :: hyphenate groups (h.drop n)

def dehyphenate : List Nat → Bytes → Option Bytes
  | [], s => some s
  | n :: groups, s =>
    match s.drop n with
    | [] => none
    | c :: rest => if c = 45 then (dehyphenate groups rest).map (s.take n ++ ·) else none

theorem length_hyphenate (groups : List Nat) (h : Bytes) :
    (hyphenate groups h).length = h.length + groups.length := by
  induction groups generalizing h with
  | nil => rfl
  | cons n groups ih =>
    simp only [hyphenate, List.length_append, List.length_cons, ih, List.length_take, List.length_drop]
    omega

theorem mem_hyphenate {groups : List Nat} {h : Bytes} {c : UInt8} (hc : c ∈ hyphenate groups h) :
    c = 45 ∨ c ∈ h := by
  induction groups generalizing h with
  | nil => exact .inr hc
  | cons n groups ih =>
    rcases List.mem_append.mp hc with hc | hc
    · exact .inr (List.mem_of_mem_take hc)
    · rcases List.mem_cons.mp hc with hc | hc
      · exact .inl hc
      · exact (ih hc).imp_right List.mem_of_mem_drop

theorem dehyphenate_hyphenate {groups : List Nat} {h : Bytes} (hlen : groups.sum ≤ h.length) :
    dehyphenate groups (hyphenate groups h) = some h := by
  induction groups generalizing h with
  | nil => rfl
  | cons n groups ih =>
    rw [List.sum_cons] at hlen
    have htake : (h.take n).length = n := by
      rw [List.length_take]
      omega
    have hih := @ih (h.drop n) (by rw [List.length_drop]; omega)
    rw [hyphenate, dehyphenate, List.drop_left' htake, List.take_left' htake]
    simp [hih]

def uuidGroups : List Nat := [8, 4, 4, 4]

def standardUnparseLower (u : Uuid) : Bytes := hyphenate uuidGroups (u.toList.flatMap hexByte)

def standardParse (s : Bytes) : Option Uuid :=
  if s.length = 36 then
    match (dehyphenate uuidGroups s).bind parseHex with
    | none => none
    | some l => if h : l.length = 16 then some ⟨l, h⟩ else none
  else none

theorem length_standardUnparseLower (u : Uuid) : (standardUnparseLower u).length = 36 := by
  rw [standardUnparseLower, length_hyphenate, length_flatMap_hexByte, u.toList_length]
  rfl

theorem le_of_mem_standardUnparseLower {u : Uuid} {c : UInt8} (h : c ∈ standardUnparseLower u) : 45 ≤ c := by
  rcases mem_hyphenate h with rfl | h
  · decide
  · exact le_trans (by decide) (le_of_mem_hexBytes h)

def standardUuidText : UuidText where
  parse := standardParse
  unparseLower := standardUnparseLower
  length_unparseLower := length_standardUnparseLower
  parse_unparseLower u := by
    have hlen : uuidGroups.sum ≤ (u.toList.flatMap hexByte).length := by
      rw [length_flatMap_hexByte, u.toList_length]
      decide
    rw [standardParse, if_pos (length_standardUnparseLower u), standardUnparseLower,
      dehyphenate_hyphenate hlen, Option.bind_some, parseHex_hexByte]
    simp only [u.toList_length, dite_true]
    rfl
  length_of_parse s u h := by
    unfold standardParse at h
    split_ifs at h with hs
    exact hs

end Reconnoiter
