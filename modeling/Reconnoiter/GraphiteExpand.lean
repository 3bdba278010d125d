import Reconnoiter.Bytes

/-! Brace expansion of graphite patterns. The scan for a group goes on behind a brace that is
not closed, at a place counted from there but used as if it were counted from the start. -/

namespace Reconnoiter

def findChar (s : Bytes) (c : UInt8) : Option Nat := if c ∈ s then some (upTo c s).length else none

def closing : Nat → Bytes → Option Nat
  | _, [] => none
  | depth, c :: s =>
    if c = 123 then (closing (depth + 1) s).map (· + 1)
    else if c = 125 then if depth ≤ 1 then some 0 else (closing (depth - 1) s).map (· + 1)
    else (closing depth s).map (· + 1)

def scanBraces (s : Bytes) : Nat → Nat → Option (Option (Nat × Nat))
  | 0, _ => none
  | fuel + 1, pos =>
    match findChar (s.drop pos) 123 with
    | none => some none
    | some start =>
      match closing 1 (s.drop (start + 1)) with
      | some k => some (some (start, start + 1 + k))
      | none => scanBraces s fuel (start + 1)

/-- `strtok_r` with a comma. -/
def strtok (s : Bytes) : List Bytes := (s.splitOn 44).filter (· ≠ [])

def expandEach (f : Bytes → Option (List Bytes)) : List Bytes → Option (List Bytes)
  | [] => some []
  | token :: tokens => (f token).bind fun out => (expandEach f tokens).map (out ++ ·)

/-- `graphite_expand_braces`. The suffix is copied with its own length as the size of the
buffer, which leaves no room for its last byte. -/
def expandBraces : Nat → Bytes → Bytes → Bytes → Option (List Bytes)
  | 0, _, _, _ => none
  | fuel + 1, pre, s, suf =>
    (scanBraces s fuel 0).bind fun
      | none => if suf = [] then some [pre ++ s ++ suf] else expandBraces fuel (pre ++ s) suf []
      | some (start, stop) =>
        expandEach (fun token => expandBraces fuel (pre ++ s.take start) token
          (s.drop (stop + 1) ++ suf.dropLast))
          (strtok ((s.drop (start + 1)).take (stop - start - 1)))

def ScanStuck (s : Bytes) : Prop :=
  ∃ p a, findChar s 123 = some p ∧ closing 1 (s.drop (p + 1)) = none ∧
    findChar (s.drop (p + 1)) 123 = some a ∧
    (p ≤ a ∨ 125 ∉ (s.take p).drop (a + 1) ∧ 125 ∉ (s.take p).drop (p - a))

def Scans (s : Bytes) (r : Option (Nat × Nat)) : Prop := ∃ fuel, scanBraces s fuel 0 = some r

inductive Stalls : Bytes → Bytes → Prop
  | stuck {s suf : Bytes} (h : ScanStuck s) : Stalls s suf
  | follow {s suf : Bytes} (hscan : Scans s none) (hne : suf ≠ []) (h : Stalls suf []) : Stalls s suf
  | alternative {s suf token : Bytes} {start stop : Nat} (hscan : Scans s (some (start, stop)))
      (htoken : token ∈ strtok ((s.drop (start + 1)).take (stop - start - 1)))
      (h : Stalls token (s.drop (stop + 1) ++ suf.dropLast)) : Stalls s suf

section Scan

variable {s u v w z : Bytes} {c : UInt8}

theorem findChar_append (h : c ∉ u) : findChar (u ++ c :: v) c = some u.length := by
  simp [findChar, upTo_append_cons h]

theorem findChar_eq_none (h : c ∉ s) : findChar s c = none := if_neg h

theorem exists_of_findChar {p : Nat} (h : findChar s c = some p) :
    ∃ u v, s = u ++ c :: v ∧ c ∉ u ∧ p = u.length := by
  rw [findChar] at h
  split_ifs at h with hmem
  cases h
  exact ⟨upTo c s, after c s, eq_upTo_append_after hmem, not_mem_upTo c s, rfl⟩

theorem closing_append {depth : Nat} (ho : 123 ∉ u) (hc : 125 ∉ u) :
    closing depth (u ++ v) = (closing depth v).map (u.length + ·) := by
  induction u with
  | nil => simp
  | cons c u ih =>
    rw [List.mem_cons, not_or] at ho hc
    obtain ⟨ho', ho⟩ := ho
    obtain ⟨hc', hc⟩ := hc
    rw [List.cons_append, closing, if_neg (Ne.symm ho'), if_neg (Ne.symm hc'), ih ho hc, Option.map_map]
    congr 1
    funext n
    simp only [Function.comp_apply, List.length_cons]
    omega

theorem closing_succ {depth : Nat} (h : closing depth s = none) : closing (depth + 1) s = none := by
  induction s generalizing depth with
  | nil => rfl
  | cons c s ih =>
    rw [closing] at h ⊢
    split_ifs at h ⊢ with ho hc hd hd'
    · rw [Option.map_eq_none_iff] at h ⊢
      exact ih h
    · omega
    · rw [Option.map_eq_none_iff] at h ⊢
      rw [Nat.add_sub_cancel]
      have := ih h
      rwa [Nat.sub_add_cancel (by omega)] at this
    · rw [Option.map_eq_none_iff] at h ⊢
      exact ih h

theorem closing_one_isSome (ho : 123 ∉ u) (hc : 125 ∈ u) : (closing 1 (u ++ v)).isSome := by
  have hsplit := eq_upTo_append_after hc
  have hpre : (123 : UInt8) ∉ upTo 125 u := fun hmem => ho (hsplit ▸ List.mem_append_left _ hmem)
  rw [hsplit, List.append_assoc, closing_append hpre (not_mem_upTo _ _), Option.isSome_map]
  simp [closing]

theorem closing_one_eq_none (ho : 123 ∉ u) (hc : 125 ∉ u) (h : closing 1 v = none) :
    closing 1 (u ++ 123 :: v) = none := by
  rw [closing_append ho hc, closing, if_pos rfl, closing_succ h]
  rfl

theorem scanBraces_next {fuel pos start : Nat} (hfind : findChar (s.drop pos) 123 = some start)
    (hclose : closing 1 (s.drop (start + 1)) = none) :
    scanBraces s (fuel + 1) pos = scanBraces s fuel (start + 1) := by
  simp [scanBraces, hfind, hclose]

theorem scanBraces_found {fuel pos start k : Nat} (hfind : findChar (s.drop pos) 123 = some start)
    (hclose : closing 1 (s.drop (start + 1)) = some k) :
    scanBraces s (fuel + 1) pos = some (some (start, start + 1 + k)) := by
  simp [scanBraces, hfind, hclose]

theorem scanBraces_done {fuel pos : Nat} (hfind : findChar (s.drop pos) 123 = none) :
    scanBraces s (fuel + 1) pos = some none := by
  simp [scanBraces, hfind]

theorem scanBraces_mono {fuel fuel' pos : Nat} {r : Option (Nat × Nat)} (h : scanBraces s fuel pos = some r)
    (hle : fuel ≤ fuel') : scanBraces s fuel' pos = some r := by
  induction fuel generalizing fuel' pos with
  | zero => cases h
  | succ fuel ih =>
    obtain ⟨fuel', rfl⟩ : ∃ n, fuel' = n + 1 := ⟨fuel' - 1, by omega⟩
    rw [scanBraces] at h ⊢
    cases hfind : findChar (s.drop pos) 123 with
    | none =>
      rw [hfind] at h
      exact h
    | some start =>
      simp only [hfind] at h ⊢
      cases hclose : closing 1 (s.drop (start + 1)) with
      | some k =>
        rw [hclose] at h
        exact h
      | none =>
        simp only [hclose] at h ⊢
        exact ih h (by omega)

theorem scanBraces_cycle {x y : Nat} (hx : findChar (s.drop (x + 1)) 123 = some y)
    (hy : findChar (s.drop (y + 1)) 123 = some x) (hcx : closing 1 (s.drop (x + 1)) = none)
    (hcy : closing 1 (s.drop (y + 1)) = none) (fuel : Nat) :
    scanBraces s fuel (x + 1) = none ∧ scanBraces s fuel (y + 1) = none := by
  induction fuel with
  | zero => exact ⟨rfl, rfl⟩
  | succ fuel ih =>
    rw [scanBraces_next hx hcy, scanBraces_next hy hcx]
    exact ⟨ih.2, ih.1⟩

theorem drop_before {x : Nat} (hx : x < u.length) :
    (u ++ 123 :: v).drop (x + 1) = u.drop (x + 1) ++ 123 :: v := by
  rw [List.drop_append_of_le_length (by omega)]

theorem findChar_before {x : Nat} (ho : 123 ∉ u) (hx : x < u.length) :
    findChar ((u ++ 123 :: v).drop (x + 1)) 123 = some (u.length - x - 1) := by
  rw [drop_before hx, findChar_append fun hmem => ho (List.mem_of_mem_drop hmem), List.length_drop]
  congr 1

theorem closing_before {x : Nat} (ho : 123 ∉ u) (hx : x < u.length) (hc : 125 ∉ u.drop (x + 1))
    (h : closing 1 v = none) : closing 1 ((u ++ 123 :: v).drop (x + 1)) = none := by
  rw [drop_before hx]
  exact closing_one_eq_none (fun hmem => ho (List.mem_of_mem_drop hmem)) hc h

theorem closing_before_isSome {x : Nat} (ho : 123 ∉ u) (hx : x < u.length) (hc : 125 ∈ u.drop (x + 1)) :
    (closing 1 ((u ++ 123 :: v).drop (x + 1))).isSome := by
  rw [drop_before hx]
  exact closing_one_isSome (fun hmem => ho (List.mem_of_mem_drop hmem)) hc

theorem scanStuck_iff (ho : 123 ∉ u) (ho' : 123 ∉ w) (h : closing 1 (w ++ 123 :: z) = none) :
    ScanStuck (u ++ 123 :: (w ++ 123 :: z)) ↔
      u.length ≤ w.length ∨ 125 ∉ u.drop (w.length + 1) ∧ 125 ∉ u.drop (u.length - w.length) := by
  have hdrop : (u ++ 123 :: (w ++ 123 :: z)).drop (u.length + 1) = w ++ 123 :: z := by
    rw [List.drop_append, List.drop_eq_nil_of_le (by omega)]
    simp
  constructor
  · rintro ⟨p, a, hp, -, ha, hstuck⟩
    rw [findChar_append ho] at hp
    cases hp
    rw [hdrop, findChar_append ho'] at ha
    cases ha
    rwa [List.take_left] at hstuck
  · intro hstuck
    refine ⟨u.length, w.length, findChar_append ho, hdrop.symm ▸ h, ?_, ?_⟩
    · rw [hdrop, findChar_append ho']
    · rwa [List.take_left]

theorem scanBraces_unclosed (ho : 123 ∉ u) (hclose : closing 1 v = none) (fuel : Nat) :
    scanBraces (u ++ 123 :: v) (fuel + 1) 0 = scanBraces (u ++ 123 :: v) fuel (u.length + 1) := by
  refine scanBraces_next (findChar_append ho) ?_
  rw [List.drop_append, List.drop_eq_nil_of_le (by omega)]
  simpa using hclose

theorem scanBraces_stuck (h : ScanStuck s) (fuel : Nat) : scanBraces s fuel 0 = none := by
  obtain ⟨p, a, hp, hclose, ha, hstuck⟩ := h
  obtain ⟨u, v, rfl, ho, rfl⟩ := exists_of_findChar hp
  have hdrop : (u ++ 123 :: v).drop (u.length + 1) = v := by
    rw [List.drop_append, List.drop_eq_nil_of_le (by omega)]
    simp
  rw [hdrop] at hclose ha
  rw [List.take_left] at hstuck
  cases fuel with
  | zero => rfl
  | succ fuel =>
    rw [scanBraces_unclosed ho hclose]
    obtain ⟨w, z, rfl, ho', rfl⟩ := exists_of_findChar ha
    have hc' : (125 : UInt8) ∉ w := by
      intro hmem
      have := closing_one_isSome (v := 123 :: z) ho' hmem
      rw [hclose] at this
      cases this
    have hnext : findChar ((u ++ 123 :: (w ++ 123 :: z)).drop (u.length + 1)) 123 = some w.length := by
      rw [hdrop]
      exact ha
    rcases Nat.lt_or_ge w.length u.length with hlt | hge
    · obtain ⟨hca, hcb⟩ := hstuck.resolve_left (by omega)
      -- both places lie before the first brace, and from each the scan finds the other
      have hb : u.length - w.length - 1 < u.length := by omega
      have hcb' : (125 : UInt8) ∉ u.drop (u.length - w.length - 1 + 1) := by
        rwa [Nat.sub_add_cancel (by omega)]
      have hback : u.length - (u.length - w.length - 1) - 1 = w.length := by omega
      have hfind := findChar_before (v := w ++ 123 :: z) ho hb
      rw [hback] at hfind
      cases fuel with
      | zero => rfl
      | succ fuel =>
        rw [scanBraces_next hnext (closing_before ho hlt hca hclose)]
        exact (scanBraces_cycle (findChar_before ho hlt) hfind (closing_before ho hlt hca hclose)
          (closing_before ho hb hcb' hclose) fuel).1
    · have hfar : (u ++ 123 :: (w ++ 123 :: z)).drop (w.length + 1) =
        w.drop (w.length - u.length) ++ 123 :: z := by
        rw [List.drop_append, List.drop_eq_nil_of_le (by omega), List.nil_append,
          show w.length + 1 - u.length = w.length - u.length + 1 by omega, List.drop_succ_cons,
          List.drop_append_of_le_length (by omega)]
      have ho'' : (123 : UInt8) ∉ w.drop (w.length - u.length) := fun hmem => ho' (List.mem_of_mem_drop hmem)
      have hback : (w.drop (w.length - u.length)).length = u.length := by
        rw [List.length_drop]
        omega
      refine (scanBraces_cycle hnext ?_ (hdrop.symm ▸ hclose) ?_ fuel).1
      · rw [hfar, findChar_append ho'', hback]
      · rw [closing_append ho' hc', Option.map_eq_none_iff] at hclose
        rw [hfar, closing_append ho'' fun hmem => hc' (List.mem_of_mem_drop hmem), hclose]
        rfl

theorem scanBraces_before (ho : 123 ∉ u) (hclose : closing 1 v = none) (hv : 123 ∈ v)
    (h : ¬ScanStuck (u ++ 123 :: v)) : ∃ start k, scanBraces (u ++ 123 :: v) 4 0 =
      some (some (start, start + 1 + k)) ∧
      start < u.length ∧ closing 1 ((u ++ 123 :: v).drop (start + 1)) = some k := by
  obtain ⟨w, z, rfl, ho'⟩ : ∃ w z, v = w ++ 123 :: z ∧ 123 ∉ w :=
    ⟨_, _, eq_upTo_append_after hv, not_mem_upTo _ _⟩
  have hdrop : (u ++ 123 :: (w ++ 123 :: z)).drop (u.length + 1) = w ++ 123 :: z := by
    rw [List.drop_append, List.drop_eq_nil_of_le (by omega)]
    simp
  have hnext : findChar ((u ++ 123 :: (w ++ 123 :: z)).drop (u.length + 1)) 123 = some w.length := by
    rw [hdrop]
    exact findChar_append ho'
  rw [scanStuck_iff ho ho' hclose, not_or, not_and_or, not_not, not_not] at h
  obtain ⟨hlt, hclosing⟩ := h
  rw [Nat.not_le] at hlt
  rw [scanBraces_unclosed ho hclose]
  by_cases hca : (125 : UInt8) ∈ u.drop (w.length + 1)
  · obtain ⟨k, hk⟩ := Option.isSome_iff_exists.mp (closing_before_isSome ho hlt hca)
    exact ⟨w.length, k, scanBraces_found hnext hk, hlt, hk⟩
  · have hb : u.length - w.length - 1 < u.length := by omega
    have hcb : (125 : UInt8) ∈ u.drop (u.length - w.length - 1 + 1) := by
      rw [Nat.sub_add_cancel (by omega)]
      exact hclosing.resolve_left hca
    obtain ⟨k, hk⟩ := Option.isSome_iff_exists.mp (closing_before_isSome ho hb hcb)
    rw [scanBraces_next hnext (closing_before ho hlt hca hclose)]
    exact ⟨_, k, scanBraces_found (findChar_before ho hlt) hk, hb, hk⟩

theorem scanBraces_ends (h : ¬ScanStuck s) : ∃ r, scanBraces s 4 0 = some r := by
  cases hp : findChar s 123 with
  | none => exact ⟨none, scanBraces_done hp⟩
  | some p =>
    obtain ⟨u, v, rfl, ho, rfl⟩ := exists_of_findChar hp
    have hdrop : (u ++ 123 :: v).drop (u.length + 1) = v := by
      rw [List.drop_append, List.drop_eq_nil_of_le (by omega)]
      simp
    cases hclose : closing 1 v with
    | some k =>
      rw [← hdrop] at hclose
      exact ⟨_, scanBraces_found hp hclose⟩
    | none =>
      by_cases hv : (123 : UInt8) ∈ v
      · obtain ⟨start, k, hscan, -, -⟩ := scanBraces_before ho hclose hv h
        exact ⟨_, hscan⟩
      · rw [scanBraces_unclosed ho hclose]
        refine ⟨none, scanBraces_done ?_⟩
        rw [hdrop]
        exact findChar_eq_none hv

theorem closing_lt {depth k : Nat} (h : closing depth s = some k) : k < s.length := by
  induction s generalizing depth k with
  | nil => cases h
  | cons c s ih =>
    rw [closing] at h
    split_ifs at h with ho hc hd
    · obtain ⟨k, hk, rfl⟩ := Option.map_eq_some_iff.mp h
      simpa using ih hk
    · cases h
      exact Nat.succ_pos _
    · obtain ⟨k, hk, rfl⟩ := Option.map_eq_some_iff.mp h
      simpa using ih hk
    · obtain ⟨k, hk, rfl⟩ := Option.map_eq_some_iff.mp h
      simpa using ih hk

theorem Scans.bounds {start stop : Nat} (h : Scans s (some (start, stop))) :
    start < stop ∧ stop < s.length := by
  obtain ⟨fuel, h⟩ := h
  generalize hat : 0 = pos at h
  clear hat
  induction fuel generalizing pos with
  | zero => cases h
  | succ fuel ih =>
    rw [scanBraces] at h
    cases hfind : findChar (s.drop pos) 123 with
    | none => simp [hfind] at h
    | some first =>
      simp only [hfind] at h
      cases hclose : closing 1 (s.drop (first + 1)) with
      | none =>
        rw [hclose] at h
        exact ih _ h
      | some k =>
        simp only [hclose, Option.some.injEq, Prod.mk.injEq] at h
        have hk := closing_lt hclose
        rw [List.length_drop] at hk
        omega

theorem Scans.unique {r r' : Option (Nat × Nat)} (h : Scans s r) (h' : Scans s r') : r = r' := by
  obtain ⟨fuel, h⟩ := h
  obtain ⟨fuel', h'⟩ := h'
  have hmax := scanBraces_mono h (Nat.le_max_left fuel fuel')
  rw [scanBraces_mono h' (Nat.le_max_right fuel fuel')] at hmax
  exact (Option.some.inj hmax).symm

theorem not_stuck_of_scans {r : Option (Nat × Nat)} (h : Scans s r) : ¬ScanStuck s := by
  intro hstuck
  obtain ⟨fuel, h⟩ := h
  rw [scanBraces_stuck hstuck] at h
  cases h

end Scan

section Expand

variable {s suf pre token : Bytes} {f g : Bytes → Option (List Bytes)}
    {tokens : List Bytes} {out : List Bytes}

theorem expandEach_mono (h : expandEach f tokens = some out)
    (hfg : ∀ token out, f token = some out → g token = some out) :
    expandEach g tokens = some out := by
  induction tokens generalizing out with
  | nil => exact h
  | cons token tokens ih =>
    rw [expandEach] at h ⊢
    obtain ⟨first, hfirst, hmap⟩ := Option.bind_eq_some_iff.mp h
    obtain ⟨rest, hrest, rfl⟩ := Option.map_eq_some_iff.mp hmap
    rw [hfg token first hfirst, Option.bind_some, ih hrest]
    rfl

theorem expandEach_isSome_iff : (expandEach f tokens).isSome ↔ ∀ token ∈ tokens, (f token).isSome := by
  induction tokens with
  | nil => simp [expandEach]
  | cons token tokens ih =>
    rw [expandEach, List.forall_mem_cons, ← ih]
    cases hf : f token with
    | none => simp
    | some first => simp

theorem expandBraces_mono {fuel fuel' : Nat} (h : expandBraces fuel pre s suf = some out)
    (hle : fuel ≤ fuel') :
    expandBraces fuel' pre s suf = some out := by
  induction fuel generalizing fuel' pre s suf out with
  | zero => cases h
  | succ fuel ih =>
    obtain ⟨fuel', rfl⟩ : ∃ n, fuel' = n + 1 := ⟨fuel' - 1, by omega⟩
    rw [expandBraces] at h ⊢
    obtain ⟨r, hr, hrest⟩ := Option.bind_eq_some_iff.mp h
    rw [scanBraces_mono hr (by omega), Option.bind_some]
    cases r with
    | none =>
      dsimp only at hrest ⊢
      split_ifs at hrest ⊢ with hsuf
      · exact hrest
      · exact ih hrest (by omega)
    | some group => exact expandEach_mono hrest fun token out htoken => ih htoken (by omega)

theorem isInfix_of_mem_strtok (h : token ∈ strtok s) : token <:+: s :=
  isInfix_of_mem_splitOn (List.mem_filter.mp h).1

def expandSize (s suf : Bytes) : Nat := 2 * (s.length + suf.length) + min suf.length 1

theorem expandSize_follow (h : suf ≠ []) : expandSize suf [] < expandSize s suf := by
  have := List.length_pos_iff.mpr h
  simp only [expandSize, List.length_nil]
  omega

theorem expandSize_alternative {start stop : Nat} (hscan : Scans s (some (start, stop)))
    (htoken : token ∈ strtok ((s.drop (start + 1)).take (stop - start - 1))) :
    expandSize token (s.drop (stop + 1) ++ suf.dropLast) < expandSize s suf := by
  obtain ⟨hlt, hstop⟩ := hscan.bounds
  have htok := (isInfix_of_mem_strtok htoken).length_le
  rw [List.length_take, List.length_drop] at htok
  simp only [expandSize, List.length_append, List.length_drop, List.length_dropLast]
  omega

theorem expandBraces_isSome {fuel : Nat} (h : ¬Stalls s suf) (hfuel : expandSize s suf + 5 ≤ fuel) :
    (expandBraces fuel pre s suf).isSome := by
  induction fuel generalizing pre s suf with
  | zero => omega
  | succ fuel ih =>
    obtain ⟨r, hr⟩ := scanBraces_ends fun hstuck => h (.stuck hstuck)
    have hscan : Scans s r := ⟨4, hr⟩
    rw [expandBraces, scanBraces_mono hr (by omega), Option.bind_some]
    cases r with
    | none =>
      dsimp only
      split_ifs with hsuf
      · rfl
      · apply ih
        · exact fun hstall => h (.follow hscan hsuf hstall)
        · have := @expandSize_follow s suf hsuf
          omega
    | some group =>
      obtain ⟨start, stop⟩ := group
      dsimp only
      rw [expandEach_isSome_iff]
      intro token htoken
      apply ih
      · exact fun hstall => h (.alternative hscan htoken hstall)
      · have := @expandSize_alternative s suf token start stop hscan htoken
        omega

theorem expandBraces_stalls (h : Stalls s suf) (fuel : Nat) (pre : Bytes) :
    expandBraces fuel pre s suf = none := by
  induction h generalizing fuel pre with
  | stuck hstuck =>
    cases fuel with
    | zero => rfl
    | succ fuel => rw [expandBraces, scanBraces_stuck hstuck, Option.bind_none]
  | @follow s suf hscan hne _ ih =>
    cases fuel with
    | zero => rfl
    | succ fuel =>
      rw [expandBraces]
      cases hr : scanBraces s fuel 0 with
      | none => rfl
      | some r =>
        obtain rfl := hscan.unique ⟨fuel, hr⟩
        rw [Option.bind_some]
        dsimp only
        rw [if_neg hne, ih]
  | @alternative s suf token start stop hscan htoken _ ih =>
    cases fuel with
    | zero => rfl
    | succ fuel =>
      rw [expandBraces]
      cases hr : scanBraces s fuel 0 with
      | none => rfl
      | some r =>
        obtain rfl := hscan.unique ⟨fuel, hr⟩
        rw [Option.bind_some]
        dsimp only
        rw [← Option.not_isSome_iff_eq_none, expandEach_isSome_iff]
        intro hall
        have := hall token htoken
        rw [ih] at this
        cases this

end Expand

/-! What stands before the first opening brace begins every string that comes of a pattern. -/

section Begin

variable {pre s suf u v e : Bytes} {out : List Bytes} {fuel : Nat}

theorem mem_expandEach {f : Bytes → Option (List Bytes)} {tokens : List Bytes}
    (h : expandEach f tokens = some out)
    (he : e ∈ out) : ∃ token ∈ tokens, ∃ part, f token = some part ∧ e ∈ part := by
  induction tokens generalizing out with
  | nil =>
    cases h
    cases he
  | cons token tokens ih =>
    rw [expandEach] at h
    obtain ⟨first, hfirst, hmap⟩ := Option.bind_eq_some_iff.mp h
    obtain ⟨rest, hrest, rfl⟩ := Option.map_eq_some_iff.mp hmap
    rcases List.mem_append.mp he with he | he
    · exact ⟨token, by simp, first, hfirst, he⟩
    · obtain ⟨token', htoken, part, hpart⟩ := ih hrest he
      exact ⟨token', by simp [htoken], part, hpart⟩

theorem expandBraces_pre (h : expandBraces fuel pre s suf = some out) (he : e ∈ out) : pre <+: e := by
  induction fuel generalizing pre s suf out with
  | zero => cases h
  | succ fuel ih =>
    rw [expandBraces] at h
    obtain ⟨r, -, hrest⟩ := Option.bind_eq_some_iff.mp h
    cases r with
    | none =>
      dsimp only at hrest
      split_ifs at hrest with hsuf
      · cases hrest
        rw [List.mem_singleton] at he
        exact ⟨s ++ suf, by rw [he, List.append_assoc]⟩
      · exact (List.prefix_append _ _).trans (ih hrest he)
    | some group =>
      obtain ⟨token, -, part, hpart, he⟩ := mem_expandEach hrest he
      exact (List.prefix_append _ _).trans (ih hpart he)

theorem closing_drop_lt {start k : Nat} (ho : 123 ∉ u) (hclose : closing 1 v = none)
    (hstart : start < u.length)
    (hk : closing 1 ((u ++ 123 :: v).drop (start + 1)) = some k) : start + 1 + k < u.length := by
  have hmem : (125 : UInt8) ∈ u.drop (start + 1) := by
    by_contra hmem
    rw [closing_before ho hstart hmem hclose] at hk
    cases hk
  obtain ⟨x, y, hxy, hx⟩ : ∃ x y, u.drop (start + 1) = x ++ 125 :: y ∧ 125 ∉ x :=
    ⟨_, _, eq_upTo_append_after hmem, not_mem_upTo _ _⟩
  have ho' : (123 : UInt8) ∉ x := fun h => ho (List.mem_of_mem_drop (hxy ▸ List.mem_append_left _ h))
  have hlen := congrArg List.length hxy
  rw [drop_before hstart, hxy, List.append_assoc, closing_append ho' hx] at hk
  simp [closing] at hk
  simp only [List.length_drop, List.length_append, List.length_cons] at hlen
  omega

theorem expandBraces_unclosed (ho : 123 ∉ u) (hclose : closing 1 v = none) (hv : 123 ∈ v)
    (h : expandBraces fuel pre (u ++ 123 :: v) [] = some out) : out = [] := by
  induction fuel using Nat.strong_induction_on generalizing pre u out with
  | _ fuel ih =>
    cases fuel with
    | zero => cases h
    | succ fuel =>
      rw [expandBraces] at h
      obtain ⟨r, hr, hrest⟩ := Option.bind_eq_some_iff.mp h
      have hscan : Scans (u ++ 123 :: v) r := ⟨fuel, hr⟩
      obtain ⟨start, k, hfound, hstart, hk⟩ := scanBraces_before ho hclose hv (not_stuck_of_scans hscan)
      obtain rfl := hscan.unique ⟨4, hfound⟩
      have hstop := closing_drop_lt ho hclose hstart hk
      have hbehind : (u ++ 123 :: v).drop (start + 1 + k + 1) = u.drop (start + 1 + k + 1) ++ 123 :: v :=
        drop_before hstop
      rw [List.eq_nil_iff_forall_not_mem]
      intro e he
      obtain ⟨token, htoken, part, hpart, he⟩ := mem_expandEach hrest he
      have hplain : (123 : UInt8) ∉ token := by
        intro hmem
        have hgroup := (isInfix_of_mem_strtok htoken).subset hmem
        rw [drop_before hstart, List.take_append_of_le_length (by rw [List.length_drop]; omega)] at hgroup
        exact ho (List.mem_of_mem_drop (List.mem_of_mem_take hgroup))
      rw [hbehind] at hpart
      -- the rest of the text still has the unclosed brace
      cases fuel with
      | zero => cases hpart
      | succ fuel =>
        rw [expandBraces] at hpart
        obtain ⟨r, hr, hrest⟩ := Option.bind_eq_some_iff.mp hpart
        have hnone : Scans token r := ⟨fuel, hr⟩
        obtain rfl := hnone.unique ⟨1, scanBraces_done (findChar_eq_none hplain)⟩
        dsimp only at hrest
        rw [if_neg (by simp), List.dropLast_nil, List.append_nil] at hrest
        rw [ih fuel (by omega) (fun hmem => ho (List.mem_of_mem_drop hmem)) hrest] at he
        cases he

theorem expandBraces_begin (h : expandBraces fuel pre s [] = some out) (he : e ∈ out) :
    pre ++ upTo 123 s <+: e := by
  cases fuel with
  | zero => cases h
  | succ fuel =>
    have hcall := h
    rw [expandBraces] at h
    obtain ⟨r, hr, hrest⟩ := Option.bind_eq_some_iff.mp h
    have hscan : Scans s r := ⟨fuel, hr⟩
    cases hp : findChar s 123 with
    | none =>
      obtain rfl := hscan.unique ⟨1, scanBraces_done hp⟩
      cases hrest
      rw [List.mem_singleton] at he
      rw [he, List.append_nil, List.prefix_append_right_inj]
      exact List.takeWhile_prefix _
    | some p =>
      obtain ⟨u, v, rfl, ho, rfl⟩ := exists_of_findChar hp
      rw [upTo_append_cons ho]
      have hdrop : (u ++ 123 :: v).drop (u.length + 1) = v := by
        rw [List.drop_append, List.drop_eq_nil_of_le (by omega)]
        simp
      cases hclose : closing 1 v with
      | some k =>
        rw [← hdrop] at hclose
        obtain rfl := hscan.unique ⟨1, scanBraces_found hp hclose⟩
        obtain ⟨token, -, part, hpart, he⟩ := mem_expandEach hrest he
        have hpre := expandBraces_pre hpart he
        rwa [List.take_left] at hpre
      | none =>
        by_cases hv : (123 : UInt8) ∈ v
        · rw [expandBraces_unclosed ho hclose hv hcall] at he
          cases he
        · have hnone : scanBraces (u ++ 123 :: v) 2 0 = some none := by
            rw [scanBraces_unclosed ho hclose]
            refine scanBraces_done ?_
            rw [hdrop]
            exact findChar_eq_none hv
          obtain rfl := hscan.unique ⟨2, hnone⟩
          cases hrest
          rw [List.mem_singleton] at he
          rw [he, List.append_nil, ← List.append_assoc]
          exact List.prefix_append _ _

end Begin

/-- The expansion of a pattern ends unless it comes to a text on which the scan is stuck. -/
theorem graphite_expansion_ends_iff (pattern : Bytes) :
    (∃ fuel, (expandBraces fuel [] pattern []).isSome) ↔ ¬Stalls pattern [] := by
  constructor
  · rintro ⟨fuel, h⟩ hstall
    rw [expandBraces_stalls hstall] at h
    cases h
  · intro h
    exact ⟨_, expandBraces_isSome h le_rfl⟩

theorem graphite_expansion_endless : ¬∃ fuel, (expandBraces fuel [] [123, 123] []).isSome := by
  rintro ⟨fuel, h⟩
  have hstuck : ScanStuck [123, 123] := ⟨0, 0, by decide, by decide, by decide, .inl le_rfl⟩
  rw [expandBraces_stalls (.stuck hstuck)] at h
  cases h

end Reconnoiter
