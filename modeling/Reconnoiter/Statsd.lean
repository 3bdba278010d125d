import Reconnoiter.MetricValue

/-! The statsd module's payload handler. A payload is cut into lines in place; of each line the key is
cleaned, trailing DogStatsD tags are moved into the key, and every `:value|type|@rate` behind the key is
submitted to each receiving check. -/

namespace Reconnoiter

structure StatsdDoubles (δ : Type) extends Doubles δ, ReadsDoubles δ

namespace StatsdDoubles

variable {δ : Type} (d : StatsdDoubles δ)

def one : δ := d.ofInt 1

def isZero (x : δ) : Bool := d.eq x (d.ofInt 0)

end StatsdDoubles

inductive StatsdType
  | counter
  | gauge
  | timing
  deriving DecidableEq, Repr

def StatsdType.suffix : StatsdType → Bytes
  | .counter => [124, 83, 84, 91, 115, 116, 97, 116, 115, 100, 95, 116, 121, 112,
      101, 58, 99, 111, 117, 110, 116, 93]
  | .gauge => [124, 83, 84, 91, 115, 116, 97, 116, 115, 100, 95, 116, 121, 112,
      101, 58, 103, 97, 117, 103, 101, 93]
  | .timing =>
    [124, 83, 84, 91, 115, 116, 97, 116, 115, 100, 95, 116, 121, 112, 101, 58,
      116, 105, 109, 105, 110, 103, 93]

structure StatsdCheck where
  id : Nat
  closure : Bool
  deriving DecidableEq, Repr

structure StatsdUpdate (δ : Type) where
  check : Nat
  name : Bytes
  type : StatsdType
  value : δ
  sample : δ
  deriving DecidableEq, Repr

section

variable {δ : Type} (d : StatsdDoubles δ)

def updateCheck (c : StatsdCheck) (key : Bytes) (type : StatsdType) (diff sample : δ) :
    List (StatsdUpdate δ) :=
  if d.isZero sample then []
  else if c.closure = false then []
  else [⟨c.id, key ++ type.suffix, type, diff, sample⟩]

def keyByte (tags : Bool) (c : UInt8) : Bytes :=
  if c = 47 then [45]
  else if (97 ≤ c ∧ c ≤ 122) ∨ (65 ≤ c ∧ c ≤ 90) ∨ (48 ≤ c ∧ c ≤ 57) ∨ (c = 61 ∧ tags = false) ∨
      c = 96 ∨ c = 46 ∨ c = 95 ∨ c = 45 then [c]
  else if tags = true ∧ c = 61 then [58]
  else if c = 59 ∨ c = 44 then (if tags then [44] else stOpen)
  else []

def keyLoop : Bytes → Bytes → Bool → Bool → Bytes × Bool × Bytes
  | [], key, _, tags => (key, tags, [])
  | c :: cp, key, lastSpace, tags =>
    if ¬ key.length < maxMetricTaggedName - 6 ∨ c = 0 ∨ c = 58 then (key, tags, c :: cp)
    else if isSpace c then keyLoop cp (if lastSpace then key else key ++ [95]) true tags
    else keyLoop cp (key ++ keyByte tags c) false (tags || c == 59 || c == 44)

def tagsFit (key : Bytes) (tags : Bool) (len : Nat) : Bool :=
  if tags then len < maxMetricTaggedName - key.length - 3 else len < maxMetricTaggedName - key.length - 6

def addDdTags (key : Bytes) (tags : Bool) (ddtags : Bytes) (len : Int) : Bytes × Bool :=
  if 0 < len ∧ tagsFit key tags len.toNat then
    (key ++ (if tags then [44] else stOpen) ++ ddtags.take len.toNat, true)
  else (key, tags)

def closeKey (key : Bytes) (tags : Bool) : Bytes := upTo 0 (if tags then key ++ [93] else key)

def afterKey (line : Bytes) : Bytes := (keyLoop line [] false false).2.2

def ddText (line : Bytes) : Bytes := after 35 (afterKey line)

/-- The key of a line. `line_end` is one past the NUL of a line that had its newline, and on the NUL of one
that had none; the length of the tags is `line_end - ddtags - 1` for both. -/
def lineKey (line : Bytes) (newline : Bool) : Bytes :=
  let (key, tags, cp) := keyLoop line [] false false
  if 35 ∈ cp then
    let len : Int := (ddText line).length + (if newline then 1 else 0) - 1
    let (key, tags) := addDdTags key tags (ddText line) len
    closeKey key tags
  else closeKey key tags

def readType (s : Bytes) : Option StatsdType × δ :=
  let sample := after 124 s
  let rate := if sample.head? = some 64 then d.read sample.tail else d.one
  let type := upTo 124 s
  if type.head? = some 103 then (some .gauge, rate)
  else if type = [109, 115] then (some .timing, rate)
  else (none, rate)

/-- The value loop over the C string at `cp`. A value without a `|` keeps the type of the value before it. -/
def valueLoop (cp : Bytes) (type : Option StatsdType) : List (StatsdType × δ × δ) :=
  if _h : 58 ∈ cp then
    let value := after 58 cp
    if 124 ∈ value then
      let (type, rate) := readType d (after 124 value)
      let text := upTo 124 value
      (type.getD .counter, d.read text, rate) :: valueLoop text (some (type.getD .counter))
    else (type.getD .counter, d.read value, d.one) :: valueLoop value (some (type.getD .counter))
  else []
termination_by cp.length
decreasing_by
  all_goals
    have hcp := congrArg List.length (eq_upTo_append_after _h)
    simp only [List.length_append, List.length_cons] at hcp
  · have hle := length_upTo_le 124 (after 58 cp)
    omega
  · omega

def lineValues (line : Bytes) : List (StatsdType × δ × δ) :=
  valueLoop d (upTo 0 (upTo 35 (afterKey line))) none

def statsdLine (checks : List StatsdCheck) (line : Bytes) (newline : Bool) : List (StatsdUpdate δ) :=
  (lineValues d line).flatMap fun v =>
    checks.flatMap fun c => updateCheck d c (lineKey line newline) v.1 v.2.1 v.2.2

/-- The loop of `statsd_handle_payload` from `ecp` to the end of the payload. -/
def statsdHandlePayload (checks : List StatsdCheck) (payload : Bytes) : List (StatsdUpdate δ) :=
  if _h : 10 ∈ payload then
    statsdLine d checks (upTo 10 payload) true ++ statsdHandlePayload checks (after 10 payload)
  else if payload = [] then []
  else statsdLine d checks payload false
termination_by payload.length
decreasing_by
  have hpayload := congrArg List.length (eq_upTo_append_after _h)
  simp only [List.length_append, List.length_cons] at hpayload
  omega

end

theorem not_mem_keyByte {tags : Bool} {c : UInt8} (hc : c ≠ 0) : 0 ∉ keyByte tags c := by
  unfold keyByte
  split_ifs <;> simp [stOpen, Ne.symm hc]

theorem not_mem_keyLoop (line key : Bytes) (lastSpace tags : Bool) (hkey : 0 ∉ key) :
    0 ∉ (keyLoop line key lastSpace tags).1 := by
  induction line generalizing key lastSpace tags with
  | nil => exact hkey
  | cons c cp ih =>
    rw [keyLoop]
    split_ifs with hstop hspace hlast
    · exact hkey
    · exact ih _ _ _ hkey
    · exact ih _ _ _ (by simp [hkey])
    · apply ih
      push Not at hstop
      simp [hkey, not_mem_keyByte hstop.2.1]

theorem upTo_closed_eq_iff (text : Bytes) (x : UInt8) :
    upTo 0 (text ++ [x] ++ [93]) = upTo 0 (text ++ [93]) ↔ 0 ∈ text := by
  constructor
  · intro heq
    by_contra hnul
    rw [List.append_assoc, upTo_append hnul, upTo_append hnul, List.append_cancel_left_eq] at heq
    by_cases hx : x = 0 <;> simp [upTo, hx] at heq
  · intro hnul
    rw [List.append_assoc, upTo_append_of_mem hnul, upTo_append_of_mem hnul]

theorem closeKey_added_ne {key : Bytes} (hkey : 0 ∉ key) (tags : Bool) (text : Bytes) :
    closeKey (key ++ (if tags then [44] else stOpen) ++ text) true ≠ closeKey key tags := by
  intro heq
  cases tags
  · simp only [closeKey, Bool.false_eq_true, reduceIte, List.append_assoc] at heq
    rw [upTo_append hkey, upTo_eq_self hkey] at heq
    simp [upTo, stOpen] at heq
  · simp only [closeKey, reduceIte, List.append_assoc] at heq
    rw [upTo_append hkey, upTo_append hkey] at heq
    simp [upTo] at heq

theorem closeKey_added {key : Bytes} (hkey : 0 ∉ key) (tags : Bool) (text : Bytes) :
    closeKey (key ++ (if tags then [44] else stOpen) ++ text) true =
      key ++ (if tags then [44] else stOpen) ++ upTo 0 (text ++ [93]) := by
  have hopen : 0 ∉ key ++ (if tags then [44] else stOpen) := by cases tags <;> simp [hkey, stOpen]
  rw [closeKey, if_pos rfl, List.append_assoc _ text, upTo_append hopen]

theorem tagsFit_mono {key : Bytes} {tags : Bool} {m n : Nat} (hmn : m ≤ n) (h : tagsFit key tags n = true) :
    tagsFit key tags m = true := by
  unfold tagsFit at *
  cases tags <;> simp at * <;> omega

def LosesTagByte (line : Bytes) : Prop :=
  let (key, tags, _) := keyLoop line [] false false
  ddText line ≠ [] ∧ tagsFit key tags (max ((ddText line).length - 1) 1) = true ∧
    (0 ∈ (ddText line).dropLast → tagsFit key tags (ddText line).length = false)

instance (line : Bytes) : Decidable (LosesTagByte line) := inferInstanceAs (Decidable (_ ∧ _ ∧ (_ → _)))

theorem addDdTags_eq_iff {key : Bytes} (hkey : 0 ∉ key) (tags : Bool) (text : Bytes) (x : UInt8) :
    closeKey (addDdTags key tags (text ++ [x]) (text.length + 1)).1
        (addDdTags key tags (text ++ [x]) (text.length + 1)).2 =
      closeKey (addDdTags key tags (text ++ [x]) text.length).1
        (addDdTags key tags (text ++ [x]) text.length).2 ↔
      ¬ (tagsFit key tags (max text.length 1) = true ∧
        (0 ∈ text → tagsFit key tags (text.length + 1) = false)) := by
  have hpos : (0 : Int) < text.length + 1 := by omega
  have hnat : ((text.length : Int) + 1).toNat = text.length + 1 := by omega
  have htake : (text ++ [x]).take (text.length + 1) = text ++ [x] := List.take_of_length_le (by simp)
  by_cases hlong : tagsFit key tags (text.length + 1) = true
  · have hall : addDdTags key tags (text ++ [x]) (text.length + 1) =
        (key ++ (if tags then [44] else stOpen) ++ (text ++ [x]), true) := by
      rw [addDdTags, hnat, if_pos ⟨hpos, hlong⟩, htake]
    have hmax : tagsFit key tags (max text.length 1) = true := tagsFit_mono (by omega) hlong
    rw [hall]
    by_cases hempty : text = []
    · subst hempty
      have hnone : addDdTags key tags ([] ++ [x]) (([] : Bytes).length : Int) = (key, tags) := by
        rw [addDdTags, if_neg (by simp)]
      rw [hnone]
      simp only [hmax, List.not_mem_nil, false_implies, and_self, not_true, iff_false]
      exact closeKey_added_ne hkey tags _
    · have hlen : 0 < text.length := List.length_pos_iff.mpr hempty
      have hsome : addDdTags key tags (text ++ [x]) text.length =
          (key ++ (if tags then [44] else stOpen) ++ text, true) := by
        rw [addDdTags, Int.toNat_natCast, if_pos ⟨by omega, tagsFit_mono (by omega) hlong⟩, List.take_left]
      rw [hsome, closeKey_added hkey, closeKey_added hkey, List.append_cancel_left_eq, upTo_closed_eq_iff]
      simp [hmax, hlong]
  · have hnone : addDdTags key tags (text ++ [x]) (text.length + 1) = (key, tags) := by
      rw [addDdTags, hnat, if_neg (fun h => hlong h.2)]
    rw [Bool.not_eq_true] at hlong
    rw [hnone]
    by_cases hshort : (0 : Int) < text.length ∧ tagsFit key tags text.length = true
    · have hsome : addDdTags key tags (text ++ [x]) text.length =
          (key ++ (if tags then [44] else stOpen) ++ text, true) := by
        rw [addDdTags, Int.toNat_natCast, if_pos hshort, List.take_left]
      have hmax : max text.length 1 = text.length := by omega
      rw [hsome, hmax]
      simp only [hshort.2, hlong, implies_true, and_self, not_true, iff_false]
      exact (closeKey_added_ne hkey tags text).symm
    · have hsame : addDdTags key tags (text ++ [x]) text.length = (key, tags) := by
        rw [addDdTags, Int.toNat_natCast, if_neg hshort]
      rw [hsame]
      simp only [hlong, implies_true, and_true, true_iff]
      intro hmax
      by_cases hempty : text = []
      · subst hempty
        exact absurd hmax (by simpa using hlong)
      · have hlen : 0 < text.length := List.length_pos_iff.mpr hempty
        apply hshort
        rw [max_eq_left (by omega)] at hmax
        exact ⟨by omega, hmax⟩

theorem lineKey_eq_iff (line : Bytes) : lineKey line true = lineKey line false ↔ ¬ LosesTagByte line := by
  have hkey : 0 ∉ (keyLoop line [] false false).1 := not_mem_keyLoop line [] false false List.not_mem_nil
  unfold lineKey LosesTagByte
  by_cases hhash : 35 ∈ (keyLoop line [] false false).2.2
  · simp only [hhash, if_true]
    rcases List.eq_nil_or_concat (ddText line) with hempty | ⟨text, x, htext⟩
    · simp [hempty, addDdTags]
    · rw [List.concat_eq_append] at htext
      have hlong : (((text ++ [x]).length : Int) + 1 - 1) = text.length + 1 := by simp
      have hshort : (((text ++ [x]).length : Int) + 0 - 1) = text.length := by simp
      simp only [htext, reduceIte, Bool.false_eq_true, hlong, hshort]
      rw [addDdTags_eq_iff hkey]
      simp
  · have hempty : ddText line = [] := after_eq_nil hhash
    simp [hhash, hempty]

section

variable {δ : Type} (d : StatsdDoubles δ)

def lineSubmits (checks : List StatsdCheck) (line : Bytes) : List (Nat × StatsdType × δ × δ) :=
  (lineValues d line).flatMap fun v =>
    checks.flatMap fun c => if d.isZero v.2.2 = false ∧ c.closure = true then [(c.id, v)] else []

theorem updateCheck_eq (c : StatsdCheck) (key : Bytes) (v : StatsdType × δ × δ) :
    updateCheck d c key v.1 v.2.1 v.2.2 =
      (if d.isZero v.2.2 = false ∧ c.closure = true then [(c.id, v)] else []).map
        fun u => ⟨u.1, key ++ u.2.1.suffix, u.2.1, u.2.2.1, u.2.2.2⟩ := by
  unfold updateCheck
  cases d.isZero v.2.2 <;> cases c.closure <;> simp

theorem statsdLine_eq (checks : List StatsdCheck) (line : Bytes) (newline : Bool) :
    statsdLine d checks line newline = (lineSubmits d checks line).map
      fun u => ⟨u.1, lineKey line newline ++ u.2.1.suffix, u.2.1, u.2.2.1, u.2.2.2⟩ := by
  simp only [statsdLine, lineSubmits, updateCheck_eq, List.map_flatMap]

theorem lineSubmits_eq_nil_iff (checks : List StatsdCheck) (line : Bytes) :
    lineSubmits d checks line = [] ↔
      ¬ ((∃ c ∈ checks, c.closure = true) ∧ ∃ v ∈ lineValues d line, d.isZero v.2.2 = false) := by
  rw [lineSubmits, List.flatMap_eq_nil_iff]
  constructor
  · rintro hnil ⟨⟨c, hc, hclosure⟩, v, hv, hrate⟩
    have hone := List.flatMap_eq_nil_iff.mp (hnil v hv) c hc
    simp [hrate, hclosure] at hone
  · intro hnone v hv
    rw [List.flatMap_eq_nil_iff]
    intro c hc
    rw [if_neg]
    rintro ⟨hrate, hclosure⟩
    exact hnone ⟨⟨c, hc, hclosure⟩, v, hv, hrate⟩

theorem statsdLine_eq_iff (checks : List StatsdCheck) (line : Bytes) :
    statsdLine d checks line false = statsdLine d checks line true ↔
      ¬ (LosesTagByte line ∧ (∃ c ∈ checks, c.closure = true) ∧
        ∃ v ∈ lineValues d line, d.isZero v.2.2 = false) := by
  rw [statsdLine_eq, statsdLine_eq]
  constructor
  · rintro heq ⟨hloses, hsubmits⟩
    have hne : lineSubmits d checks line ≠ [] :=
      fun hnil => (lineSubmits_eq_nil_iff d checks line).mp hnil hsubmits
    obtain ⟨u, rest, hu⟩ := List.exists_cons_of_ne_nil hne
    rw [hu, List.map_cons, List.map_cons, List.cons.injEq, StatsdUpdate.mk.injEq] at heq
    have hkeys : lineKey line false = lineKey line true := List.append_cancel_right heq.1.2.1
    exact (lineKey_eq_iff line).mp hkeys.symm hloses
  · intro hnot
    by_cases hloses : LosesTagByte line
    · have hnil : lineSubmits d checks line = [] :=
        (lineSubmits_eq_nil_iff d checks line).mpr fun hsubmits => hnot ⟨hloses, hsubmits⟩
      rw [hnil, List.map_nil, List.map_nil]
    · rw [(lineKey_eq_iff line).mpr hloses]

def lastLine (payload : Bytes) : Bytes := payload.rtakeWhile (· != 10)

theorem lastLine_eq_self {payload : Bytes} (h : 10 ∉ payload) : lastLine payload = payload := by
  rw [lastLine, List.rtakeWhile_eq_self_iff]
  intro x hx
  simpa using ne_of_mem_of_not_mem hx h

theorem lastLine_append (line rest : Bytes) : lastLine (line ++ 10 :: rest) = lastLine rest := by
  unfold lastLine List.rtakeWhile
  rw [List.reverse_append, List.reverse_cons, List.append_assoc]
  by_cases h : ∀ x ∈ rest.reverse, (x != 10) = true
  · rw [List.takeWhile_append_of_pos h, List.takeWhile_eq_self_iff.mpr h]
    simp
  · push Not at h
    obtain ⟨x, hx, hten⟩ := h
    have hten : x = 10 := by simpa using hten
    subst hten
    obtain ⟨a, b, hab, ha⟩ := List.eq_append_cons_of_mem hx
    have hpos : ∀ y ∈ a, (y != 10) = true := by
      intro y hy
      simpa using ne_of_mem_of_not_mem hy ha
    rw [hab, List.append_assoc, List.takeWhile_append_of_pos hpos, List.takeWhile_append_of_pos hpos]
    simp

theorem handlePayload_newline {line : Bytes} (hline : 10 ∉ line) (checks : List StatsdCheck) (rest : Bytes) :
    statsdHandlePayload d checks (line ++ 10 :: rest) =
      statsdLine d checks line true ++ statsdHandlePayload d checks rest := by
  rw [statsdHandlePayload, dif_pos (by simp), upTo_append_cons hline, after_append_cons hline]

theorem statsdLine_nil (checks : List StatsdCheck) (newline : Bool) :
    statsdLine d checks [] newline = [] := by
  have hnone : lineValues d [] = [] := by
    rw [lineValues, valueLoop, dif_neg (by simp [afterKey, keyLoop, upTo])]
  simp [statsdLine, hnone]

theorem handlePayload_append_newline (checks : List StatsdCheck) (payload : Bytes) :
    ∃ before, statsdHandlePayload d checks payload = before ++ statsdLine d checks (lastLine payload) false ∧
      (payload.getLast? ≠ some 10 →
        statsdHandlePayload d checks (payload ++ [10]) = before ++
          statsdLine d checks (lastLine payload) true) := by
  induction hn : payload.length using Nat.strong_induction_on generalizing payload with
  | _ n ih =>
    by_cases hten : 10 ∈ payload
    · obtain ⟨line, rest, rfl, hline⟩ := List.eq_append_cons_of_mem hten
      have hlt : rest.length < n := by
        simp only [List.length_append, List.length_cons] at hn
        omega
      obtain ⟨before, hbefore, hnewline⟩ := ih rest.length hlt rest rfl
      refine ⟨statsdLine d checks line true ++ before, ?_, ?_⟩
      · rw [handlePayload_newline d hline, hbefore, lastLine_append, List.append_assoc]
      · intro hlast
        have hrest : rest ≠ [] := by
          rintro rfl
          simp at hlast
        have hlast' : rest.getLast? ≠ some 10 := by
          rw [List.getLast?_append_of_ne_nil _ (by simp), List.getLast?_cons_of_ne_nil hrest] at hlast
          exact hlast
        rw [List.append_assoc, List.cons_append, handlePayload_newline d hline,
          hnewline hlast', lastLine_append,
          List.append_assoc]
    · refine ⟨[], ?_, ?_⟩
      · rw [statsdHandlePayload, dif_neg hten, lastLine_eq_self hten]
        by_cases hempty : payload = []
        · rw [if_pos hempty, hempty, statsdLine_nil]
          rfl
        · rw [if_neg hempty, List.nil_append]
      · intro _
        rw [handlePayload_newline d hten, lastLine_eq_self hten, statsdHandlePayload,
          dif_neg List.not_mem_nil,
          if_pos rfl, List.append_nil, List.nil_append]

/-- A payload and the payload with a newline behind it submit the same updates exactly when its last line
loses no byte of DogStatsD tags, or submits nothing. -/
theorem trailing_newline_iff (checks : List StatsdCheck) (payload : Bytes)
    (hlast : payload.getLast? ≠ some 10) :
    statsdHandlePayload d checks payload = statsdHandlePayload d checks (payload ++ [10]) ↔
      ¬ (LosesTagByte (lastLine payload) ∧ (∃ c ∈ checks, c.closure = true) ∧
        ∃ v ∈ lineValues d (lastLine payload), d.isZero v.2.2 = false) := by
  obtain ⟨before, hplain, hnewline⟩ := handlePayload_append_newline d checks payload
  rw [hplain, hnewline hlast, List.append_cancel_left_eq, statsdLine_eq_iff]

end

def digitDoubles : StatsdDoubles Nat where
  ofInt := Int.toNat
  eq := (· == ·)
  read s := match s.head? with
    | some c => c.toNat - 48
    | none => 0

theorem trailing_newline_plain :
    statsdHandlePayload digitDoubles [⟨0, true⟩] [97, 58, 49, 124, 99] =
      statsdHandlePayload digitDoubles [⟨0, true⟩] ([97, 58, 49, 124, 99] ++ [10]) :=
  (trailing_newline_iff digitDoubles [⟨0, true⟩] [97, 58, 49, 124, 99] (by decide)).mpr
    (fun h => absurd h.1 (by decide))

theorem last_tag_byte_lost :
    statsdHandlePayload digitDoubles [⟨0, true⟩] [97, 58, 49, 124, 99, 124, 35, 120, 58, 121] =
        [⟨0, [97, 124, 83, 84, 91, 120, 58, 93] ++ StatsdType.counter.suffix, .counter, 1, 1⟩] ∧
      statsdHandlePayload digitDoubles [⟨0, true⟩] ([97, 58, 49, 124, 99, 124, 35, 120, 58, 121] ++ [10]) =
        [⟨0, [97, 124, 83, 84, 91, 120, 58, 121, 93] ++ StatsdType.counter.suffix, .counter, 1, 1⟩] ∧
      statsdHandlePayload digitDoubles [⟨0, true⟩] [97, 58, 49, 124, 99, 124, 35, 120, 58, 121] ≠
        statsdHandlePayload digitDoubles [⟨0, true⟩]
          ([97, 58, 49, 124, 99, 124, 35, 120, 58, 121] ++ [10]) := by
  decide +kernel

end Reconnoiter
