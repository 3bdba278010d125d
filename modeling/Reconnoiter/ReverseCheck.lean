import Reconnoiter.Uuid

/-! `reverse_check_allow` of `modules/reverse_check.c`: who may open a reverse
connection for a check. -/

namespace Reconnoiter

inductive AclDecision where
  | allow
  | deny
  | abstain
  deriving DecidableEq, Repr

-- Strings end in a zero byte that the lists do not hold.
def strncmpEq : Nat → Bytes → Bytes → Bool
  | 0, _, _ => true
  | _ + 1, [], [] => true
  | n + 1, x :: s, y :: t => x == y && strncmpEq n s t
  | _ + 1, _, _ => false

def checkLead : Bytes := [99, 104, 101, 99, 107, 47]

def expectedId (ut : UuidText) (uuid : Uuid) (secretKey : Option Bytes) : Bytes :=
  match secretKey with
  | some key => (checkLead ++ ut.unparseLower uuid ++ 35 :: key).take 255
  | none => (checkLead ++ ut.unparseLower uuid).take 255

def reverseCheckAllow (ut : UuidText) (lookup : Uuid → Option (Option Bytes)) (id : Bytes) :
    AclDecision :=
  if !strncmpEq 6 id checkLead then .abstain
  else
    match ut.parse ((id.drop 6).take 36) with
    | none => .deny
    | some uuid =>
      match lookup uuid with
      | none => .deny
      | some secretKey =>
        if strncmpEq id.length id (expectedId ut uuid secretKey) then .allow else .deny

theorem strncmpEq_length_iff (s t : Bytes) : strncmpEq s.length s t = true ↔ s <+: t := by
  induction s generalizing t with
  | nil => simp [strncmpEq]
  | cons x s ih =>
    cases t with
    | nil => simp [strncmpEq]
    | cons y t => simp [strncmpEq, ih, List.cons_prefix_cons]

theorem strncmpEq_of_append (s t : Bytes) : strncmpEq s.length (s ++ t) s = true := by
  induction s with
  | nil => rfl
  | cons x s ih => simpa [strncmpEq] using ih

section

variable (ut : UuidText) {lookup : Uuid → Option (Option Bytes)} {uuid : Uuid} {key id : Bytes}

theorem expectedId_eq (hkey : key.length ≤ 212) :
    expectedId ut uuid (some key) = checkLead ++ ut.unparseLower uuid ++ 35 :: key := by
  apply List.take_of_length_le
  simp only [List.length_append, List.length_cons, ut.length_unparseLower, checkLead, List.length_nil]
  omega

theorem reverseCheckAllow_prefix_iff (hkey : key.length ≤ 212) (hlookup : lookup uuid = some (some key))
    (hid : ut.parse ((id.drop 6).take 36) = some uuid) :
    reverseCheckAllow ut lookup id = .allow ↔
      ∃ t, t <+: 35 :: key ∧ id = checkLead ++ ut.unparseLower uuid ++ t := by
  have hlen : (checkLead ++ ut.unparseLower uuid).length = 42 := by
    simp [checkLead, ut.length_unparseLower]
  constructor
  · intro h
    unfold reverseCheckAllow at h
    simp only [hid, hlookup] at h
    split_ifs at h with hlead hcmp
    rw [strncmpEq_length_iff, expectedId_eq ut hkey] at hcmp
    have hlong : (checkLead ++ ut.unparseLower uuid).length ≤ id.length := by
      have hl := ut.length_of_parse _ _ hid
      rw [List.length_take, List.length_drop] at hl
      omega
    obtain ⟨t, rfl⟩ := List.prefix_of_prefix_length_le (List.prefix_append _ _) hcmp hlong
    exact ⟨t, (List.prefix_append_right_inj _).mp hcmp, rfl⟩
  · rintro ⟨t, ht, rfl⟩
    have hlead := strncmpEq_of_append checkLead (ut.unparseLower uuid ++ t)
    rw [← List.append_assoc] at hlead
    unfold reverseCheckAllow
    simp only [hid, hlookup]
    rw [if_neg (by rw [show 6 = checkLead.length from rfl, hlead]; simp), if_pos]
    rw [strncmpEq_length_iff, expectedId_eq ut hkey]
    exact (List.prefix_append_right_inj _).mpr ht

/-- For a check with a key, only the full id is let through exactly when the id
does not stop short within the key or before it. -/
theorem reverseCheckAllow_secret_iff (hkey : key.length ≤ 212)
    (hlookup : lookup uuid = some (some key)) (hid : ut.parse ((id.drop 6).take 36) = some uuid) :
    (reverseCheckAllow ut lookup id = .allow → id = checkLead ++ ut.unparseLower uuid ++ 35 :: key) ↔
      ¬ ∃ t, t <+: 35 :: key ∧ t ≠ 35 :: key ∧ id = checkLead ++ ut.unparseLower uuid ++ t := by
  rw [reverseCheckAllow_prefix_iff ut hkey hlookup hid]
  constructor
  · rintro h ⟨t, ht, hne, hidt⟩
    have he := h ⟨t, ht, hidt⟩
    rw [hidt] at he
    exact hne (List.append_cancel_left he)
  · rintro h ⟨t, ht, hidt⟩
    by_contra hne
    refine h ⟨t, ht, fun he => hne ?_, hidt⟩
    rw [hidt, he]

end

/-- The full id is let through and one with another key is not. -/
theorem reverseCheckAllow_secret_full_id :
    reverseCheckAllow standardUuidText (fun _ => some (some [107]))
        (checkLead ++ standardUnparseLower Uuid.zero ++ [35, 107]) = .allow ∧
      reverseCheckAllow standardUuidText (fun _ => some (some [107]))
        (checkLead ++ standardUnparseLower Uuid.zero ++ [35, 108]) ≠ .allow := by
  refine ⟨by decide, fun hallow => ?_⟩
  have hfull := (@reverseCheckAllow_secret_iff standardUuidText (fun _ => some (some [107])) Uuid.zero [107]
    (checkLead ++ standardUnparseLower Uuid.zero ++ [35, 108]) (by decide) rfl (by decide)).mpr (by
      rintro ⟨t, ht, -, hid⟩
      rw [← List.append_cancel_left hid] at ht
      exact absurd ht (by decide)) hallow
  exact absurd hfull (by decide)

theorem reverseCheckAllow_secret_fails :
    reverseCheckAllow standardUuidText (fun _ => some (some [107]))
        (checkLead ++ standardUnparseLower Uuid.zero) = .allow ∧
      ¬ ∀ (lookup : Uuid → Option (Option Bytes)) (uuid : Uuid) (key id : Bytes), key.length ≤ 212 →
        lookup uuid = some (some key) → standardParse ((id.drop 6).take 36) = some uuid →
        reverseCheckAllow standardUuidText lookup id = .allow →
        id = checkLead ++ standardUnparseLower uuid ++ 35 :: key := by
  have hallow : reverseCheckAllow standardUuidText (fun _ => some (some [107]))
      (checkLead ++ standardUnparseLower Uuid.zero) = .allow := by decide
  refine ⟨hallow, fun h => ?_⟩
  have he := h (fun _ => some (some [107])) Uuid.zero [107] _ (by decide) rfl (by decide) hallow
  exact absurd he (by decide)

end Reconnoiter
