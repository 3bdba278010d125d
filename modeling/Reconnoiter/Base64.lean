import Reconnoiter.Bytes

/-! Base64 as a byte codec. The laws are what a client may rely on; decoders
differ on malformed text, so nothing is said about it but a length bound. -/

namespace Reconnoiter

def isBase64Char (c : UInt8) : Bool :=
  65 ≤ c && c ≤ 90 || 97 ≤ c && c ≤ 122 || 48 ≤ c && c ≤ 57 || c == 43 || c == 47 || c == 61

/-- An encoder, a decoder and the output room the decoder insists on for a
text of a given length. A decoder may reject a text with `none`. -/
structure Base64 where
  encode : Bytes → Bytes
  decode : Bytes → Option Bytes
  room : Nat → Nat
  length_encode : ∀ x, (encode x).length = (x.length + 2) / 3 * 4
  encode_chars : ∀ x, ∀ c ∈ encode x, isBase64Char c = true
  decode_encode : ∀ x, decode (encode x) = some x
  length_decode : ∀ s x, decode s = some x → x.length * 4 ≤ s.length * 3
  room_le : ∀ n, room n ≤ n + 3

namespace Base64

def encodeInto (b : Base64) (n : Nat) (x : Bytes) : Bytes :=
  if n < (b.encode x).length then [] else b.encode x

def decodeInto (b : Base64) (n : Nat) (s : Bytes) : Option Bytes :=
  if n < b.room s.length then some [] else b.decode s

theorem encodeInto_eq {b : Base64} {n : Nat} {x : Bytes} (h : (x.length + 2) / 3 * 4 ≤ n) :
    b.encodeInto n x = b.encode x := by
  have hl := b.length_encode x
  rw [encodeInto, if_neg (by omega)]

theorem decodeInto_eq {b : Base64} {n : Nat} {s : Bytes} (h : s.length + 3 ≤ n) :
    b.decodeInto n s = b.decode s := by
  have hr := b.room_le s.length
  rw [decodeInto, if_neg (by omega)]

theorem length_decodeInto {b : Base64} {n : Nat} {s x : Bytes}
    (h : b.decodeInto n s = some x) : x.length * 4 ≤ s.length * 3 := by
  unfold decodeInto at h
  split_ifs at h
  · simp only [Option.some.injEq] at h
    simp [← h]
  · exact b.length_decode s x h

theorem encode_ne_nil (b : Base64) {x : Bytes} (h : x ≠ []) : b.encode x ≠ [] := by
  intro he
  have hl := b.length_encode x
  have hp := List.length_pos_iff.mpr h
  rw [he, List.length_nil] at hl
  omega

end Base64

/-! The standard alphabet, as an inhabitant of the laws. -/

def sextetChar (i : Nat) : UInt8 :=
  if i < 26 then .ofNat (65 + i) else if i < 52 then .ofNat (71 + i)
  else if i < 62 then .ofNat (i - 4) else if i = 62 then 43 else 47

def charSextet (c : UInt8) : Option Nat :=
  if 65 ≤ c && c ≤ 90 then some (c.toNat - 65)
  else if 97 ≤ c && c ≤ 122 then some (c.toNat - 71)
  else if 48 ≤ c && c ≤ 57 then some (c.toNat + 4)
  else if c == 43 then some 62 else if c == 47 then some 63 else none

theorem charSextet_sextetChar {i : Nat} (h : i < 64) : charSextet (sextetChar i) = some i := by
  have hall : ∀ j : Fin 64, charSextet (sextetChar j.val) = some j.val := by decide
  exact hall ⟨i, h⟩

theorem isBase64Char_sextetChar {i : Nat} (h : i < 64) : isBase64Char (sextetChar i) = true := by
  have hall : ∀ j : Fin 64, isBase64Char (sextetChar j.val) = true := by decide
  exact hall ⟨i, h⟩

def standardEncode : Bytes → Bytes
  | [] => []
  | [x] => [sextetChar (x.toNat / 4), sextetChar (x.toNat % 4 * 16), 61, 61]
  | [x, y] => [sextetChar (x.toNat / 4), sextetChar (x.toNat % 4 * 16 + y.toNat / 16),
      sextetChar (y.toNat % 16 * 4), 61]
  | x :: y :: z :: rest =>
    sextetChar (x.toNat / 4) :: sextetChar (x.toNat % 4 * 16 + y.toNat / 16) ::
      sextetChar (y.toNat % 16 * 4 + z.toNat / 64) :: sextetChar (z.toNat % 64) ::
      standardEncode rest

def standardDecode : Bytes → Bytes
  | p :: q :: r :: t :: rest =>
    match charSextet p, charSextet q, charSextet r, charSextet t with
    | some i, some j, some k, some l =>
      .ofNat (i * 4 + j / 16) :: .ofNat (j % 16 * 16 + k / 4) :: .ofNat (k % 4 * 64 + l) ::
        standardDecode rest
    | some i, some j, some k, none =>
      if t == 61 then [.ofNat (i * 4 + j / 16), .ofNat (j % 16 * 16 + k / 4)] else []
    | some i, some j, none, none => if r == 61 && t == 61 then [.ofNat (i * 4 + j / 16)] else []
    | _, _, _, _ => []
  | _ => []

theorem length_standardEncode (x : Bytes) :
    (standardEncode x).length = (x.length + 2) / 3 * 4 := by
  fun_induction standardEncode x with
  | case1 => rfl
  | case2 => simp
  | case3 => simp
  | case4 x y z rest ih => simp only [List.length_cons, ih]; omega

theorem standardEncode_chars (x : Bytes) : ∀ c ∈ standardEncode x, isBase64Char c = true := by
  have hpad : isBase64Char 61 = true := by decide
  fun_induction standardEncode x with
  | case1 => simp
  | case2 x =>
    have hx := x.toNat_lt
    simp only [List.forall_mem_cons, hpad, List.not_mem_nil, false_imp_iff, implies_true, and_true]
    exact ⟨isBase64Char_sextetChar (by omega), isBase64Char_sextetChar (by omega)⟩
  | case3 x y =>
    have hx := x.toNat_lt
    have hy := y.toNat_lt
    simp only [List.forall_mem_cons, hpad, List.not_mem_nil, false_imp_iff, implies_true, and_true]
    exact ⟨isBase64Char_sextetChar (by omega), isBase64Char_sextetChar (by omega),
      isBase64Char_sextetChar (by omega)⟩
  | case4 x y z rest ih =>
    have hx := x.toNat_lt
    have hy := y.toNat_lt
    have hz := z.toNat_lt
    simp only [List.forall_mem_cons]
    exact ⟨isBase64Char_sextetChar (by omega), isBase64Char_sextetChar (by omega),
      isBase64Char_sextetChar (by omega), isBase64Char_sextetChar (by omega), ih⟩

theorem ofNat_eq_of_toNat {x : UInt8} {n : Nat} (h : n = x.toNat) : UInt8.ofNat n = x := by
  rw [h, UInt8.ofNat_toNat]

theorem standardDecode_encode (x : Bytes) : standardDecode (standardEncode x) = x := by
  fun_induction standardEncode x with
  | case1 => rfl
  | case2 x =>
    have hx := x.toNat_lt
    have hpad : charSextet 61 = none := by decide
    simp only [standardDecode, charSextet_sextetChar (show x.toNat / 4 < 64 by omega),
      charSextet_sextetChar (show x.toNat % 4 * 16 < 64 by omega), hpad]
    simp only [beq_self_eq_true, Bool.and_self, if_true]
    rw [ofNat_eq_of_toNat (x := x) (by omega)]
  | case3 x y =>
    have hx := x.toNat_lt
    have hy := y.toNat_lt
    have hpad : charSextet 61 = none := by decide
    simp only [standardDecode, charSextet_sextetChar (show x.toNat / 4 < 64 by omega),
      charSextet_sextetChar (show x.toNat % 4 * 16 + y.toNat / 16 < 64 by omega),
      charSextet_sextetChar (show y.toNat % 16 * 4 < 64 by omega), hpad]
    simp only [beq_self_eq_true, if_true]
    rw [ofNat_eq_of_toNat (x := x) (by omega), ofNat_eq_of_toNat (x := y) (by omega)]
  | case4 x y z rest ih =>
    have hx := x.toNat_lt
    have hy := y.toNat_lt
    have hz := z.toNat_lt
    simp only [standardDecode, charSextet_sextetChar (show x.toNat / 4 < 64 by omega),
      charSextet_sextetChar (show x.toNat % 4 * 16 + y.toNat / 16 < 64 by omega),
      charSextet_sextetChar (show y.toNat % 16 * 4 + z.toNat / 64 < 64 by omega),
      charSextet_sextetChar (show z.toNat % 64 < 64 by omega), ih]
    rw [ofNat_eq_of_toNat (x := x) (by omega), ofNat_eq_of_toNat (x := y) (by omega),
      ofNat_eq_of_toNat (x := z) (by omega)]

theorem length_standardDecode (s : Bytes) : (standardDecode s).length * 4 ≤ s.length * 3 := by
  fun_induction standardDecode s with
  | case1 p q r t rest i j k l hi hj hk hl ih => simp only [List.length_cons]; omega
  | case6 => simp
  | _ => simp only [List.length_cons, List.length_nil]; omega

def standardBase64 : Base64 where
  encode := standardEncode
  decode s := some (standardDecode s)
  room n := (n + 3) / 4 * 3
  length_encode := length_standardEncode
  encode_chars := standardEncode_chars
  decode_encode x := by rw [standardDecode_encode]
  length_decode s x h := by
    rw [← Option.some.inj h]
    exact length_standardDecode s
  room_le n := by omega

example : standardEncode [102, 111, 111, 98] = [90, 109, 57, 118, 89, 103, 61, 61] := by decide

end Reconnoiter
