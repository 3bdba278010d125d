import Mathlib

/-! Byte strings in the order of `memcmp` with the shorter string first. -/

namespace Reconnoiter

abbrev Bytes := List UInt8

instance byteLinearOrder : LinearOrder UInt8 where
  le_refl := UInt8.le_refl
  le_trans _ _ _ := UInt8.le_trans
  le_antisymm _ _ := UInt8.le_antisymm
  le_total := UInt8.le_total
  lt_iff_le_not_ge a b := by
    rw [UInt8.le_iff_toNat_le, UInt8.le_iff_toNat_le, UInt8.lt_iff_toNat_lt]
    omega
  toDecidableLE := inferInstance
  toDecidableLT := inferInstance
  toDecidableEq := inferInstance

instance byteLawfulBEq : LawfulBEq UInt8 := inferInstance

instance bytesLawfulBEq : LawfulBEq Bytes := inferInstance

def isSpace (c : UInt8) : Bool := c == 32 || 9 ≤ c && c ≤ 13

/-- The bytes before the first c, or all of them: the text that `strchr` or a terminator cuts off. -/
def upTo (c : UInt8) (l : Bytes) : Bytes := l.takeWhile (· != c)

/-- The bytes behind the first c; none where there is no c. -/
def after (c : UInt8) (l : Bytes) : Bytes := l.drop ((upTo c l).length + 1)

theorem not_mem_upTo (c : UInt8) (l : Bytes) : c ∉ upTo c l := by
  intro h
  simpa using List.mem_takeWhile_imp h

theorem length_upTo_le (c : UInt8) (l : Bytes) : (upTo c l).length ≤ l.length :=
  (List.takeWhile_prefix _).length_le

theorem upTo_eq_self {c : UInt8} {l : Bytes} (h : c ∉ l) : upTo c l = l := by
  apply List.takeWhile_eq_self_iff.mpr
  intro x hx
  simpa using ne_of_mem_of_not_mem hx h

theorem after_eq_nil {c : UInt8} {l : Bytes} (h : c ∉ l) : after c l = [] := by
  simp [after, upTo_eq_self h]

theorem upTo_append {c : UInt8} {k : Bytes} (h : c ∉ k) (v : Bytes) : upTo c (k ++ v) = k ++ upTo c v := by
  have hk : ∀ x ∈ k, (x != c) = true := by
    intro x hx
    simpa using ne_of_mem_of_not_mem hx h
  rw [upTo, List.takeWhile_append_of_pos hk, upTo]

@[simp] theorem upTo_append_cons {c : UInt8} {k : Bytes} (h : c ∉ k) (v : Bytes) :
    upTo c (k ++ c :: v) = k := by
  rw [upTo_append h]
  simp [upTo]

theorem upTo_append_of_mem {c : UInt8} {k : Bytes} (h : c ∈ k) (v : Bytes) : upTo c (k ++ v) = upTo c k := by
  obtain ⟨a, b, rfl, ha⟩ := List.eq_append_cons_of_mem h
  rw [List.append_assoc, List.cons_append, upTo_append_cons ha, upTo_append_cons ha]

@[simp] theorem after_append_cons {c : UInt8} {k : Bytes} (h : c ∉ k) (v : Bytes) :
    after c (k ++ c :: v) = v := by
  simp [after, h, List.drop_append]

theorem eq_upTo_append_after {c : UInt8} {l : Bytes} (h : c ∈ l) :
    l = upTo c l ++ c :: after c l := by
  obtain ⟨k, v, rfl, hk⟩ := List.eq_append_cons_of_mem h
  simp [hk]

/-- What `strtok` and its kind find in a text stands there in one piece. -/
theorem isInfix_of_mem_splitOn {c : UInt8} {s token : Bytes} (h : token ∈ s.splitOn c) : token <:+: s := by
  induction hn : s.length using Nat.strong_induction_on generalizing s with
  | _ n ih =>
    subst hn
    by_cases hmem : c ∈ s
    · obtain ⟨u, v, rfl, hu⟩ : ∃ u v, s = u ++ c :: v ∧ c ∉ u :=
        ⟨_, _, eq_upTo_append_after hmem, not_mem_upTo _ _⟩
      rw [List.splitOn_append_cons_self_of_not_mem hu, List.mem_cons] at h
      rcases h with rfl | h
      · exact (List.prefix_append _ _).isInfix
      · have hv : token <:+: v :=
          ih v.length (by simp only [List.length_append, List.length_cons]; omega) h rfl
        exact hv.trans ((List.suffix_cons c v).trans (List.suffix_append _ _)).isInfix
    · rw [List.splitOn_eq_singleton hmem, List.mem_singleton] at h
      exact h ▸ List.infix_rfl

end Reconnoiter
