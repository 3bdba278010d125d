import Reconnoiter.Decimal

/-! The metric director's suppression of repeated messages: the digests of the messages seen
are kept in one table for each time that the messages carry, and a table that no message has
touched for more than ten seconds is pruned. Times are `mtev_gethrtime`'s nanoseconds. -/

namespace Reconnoiter

section Suppression

variable {δ : Type}

structure HashAndTime (δ : Type) where
  hash : List δ
  lastTouchedS : Nat

abbrev DedupeHashes (δ : Type) := Nat → Option (HashAndTime δ)

/-- `sizeof("M\t1.2.3.4")`, which counts the terminating null. -/
def minimumBytesBeforeSecondTab : Nat := 10

def getMessageTimeS (msg : Bytes) : Nat :=
  if msg.length ≤ minimumBytesBeforeSecondTab then 0
  else match (msg.drop minimumBytesBeforeSecondTab).dropWhile (· != 9) with
    | [] => 0
    | _ :: timeStr => (strtoll timeStr % 2 ^ 64).toNat

def hrtimeS (now : Nat) : Nat := now / 1000000000

def getDedupeHash (hashes : DedupeHashes δ) (now whence : Nat) : HashAndTime δ :=
  match hashes whence with
  | some found => ⟨found.hash, hrtimeS now⟩
  | none => ⟨[], hrtimeS now⟩

def checkDedupeHash [DecidableEq δ] (hashes : DedupeHashes δ) (now : Nat) (digest : δ) (whence : Nat) :
    Bool × DedupeHashes δ :=
  if 0 < whence then
    let table := getDedupeHash hashes now whence
    if digest ∈ table.hash then (true, Function.update hashes whence (some table))
    else (false, Function.update hashes whence (some ⟨digest :: table.hash, table.lastTouchedS⟩))
  else (false, hashes)

def checkDuplicate [DecidableEq δ] (md5 : Bytes → δ) (dedupe : Bool) (hashes : DedupeHashes δ) (now : Nat)
    (payload : Bytes) : Bool × DedupeHashes δ :=
  if dedupe then checkDedupeHash hashes now (md5 payload) (getMessageTimeS payload) else (false, hashes)

/-- The payload given to `handle_metric_buffer`, if it is, and the tables afterwards. -/
def handleFqMessage [DecidableEq δ] (md5 : Bytes → δ) (directorInUse dedupe : Bool) (hashes : DedupeHashes δ)
    (now : Nat) (payload : Bytes) : Option Bytes × DedupeHashes δ :=
  if directorInUse then
    let checked := checkDuplicate md5 dedupe hashes now payload
    (if checked.1 then none else some payload, checked.2)
  else (none, hashes)

def expirable (now : Nat) (table : HashAndTime δ) : Bool :=
  table.lastTouchedS < hrtimeS now && 10 < hrtimeS now - table.lastTouchedS

def pruneDedup (hashes : DedupeHashes δ) (now : Nat) : DedupeHashes δ :=
  fun whence => (hashes whence).filter fun table => !expirable now table

inductive DedupeEvent where
  | message (payload : Bytes)
  | prune
  deriving DecidableEq

variable [DecidableEq δ] (md5 : Bytes → δ)

def dedupeStep (hashes : DedupeHashes δ) (event : Nat × DedupeEvent) : DedupeHashes δ :=
  match event.2 with
  | .message payload => (handleFqMessage md5 true true hashes event.1 payload).2
  | .prune => pruneDedup hashes event.1

def dedupeRun (hashes : DedupeHashes δ) (events : List (Nat × DedupeEvent)) : DedupeHashes δ :=
  events.foldl (dedupeStep md5) hashes

def Distributed (events : List (Nat × DedupeEvent)) (now : Nat) (payload : Bytes) : Prop :=
  (handleFqMessage md5 true true (dedupeRun md5 (fun _ => none) events) now payload).1 = some payload

instance (events : List (Nat × DedupeEvent)) (now : Nat) (payload : Bytes) :
    Decidable (Distributed md5 events now payload) := inferInstanceAs (Decidable (_ = _))

def Remembers (hashes : DedupeHashes δ) (since : Nat) (payload : Bytes) : Prop :=
  ∃ table, hashes (getMessageTimeS payload) = some table ∧ md5 payload ∈ table.hash ∧
    hrtimeS since ≤ table.lastTouchedS

variable {md5} {hashes : DedupeHashes δ} {since now : Nat} {payload other : Bytes}

theorem hrtimeS_mono {a b : Nat} (h : a ≤ b) : hrtimeS a ≤ hrtimeS b := Nat.div_le_div_right h

theorem checkDuplicate_of_zero (h : ¬ 0 < getMessageTimeS payload) :
    checkDuplicate md5 true hashes now payload = (false, hashes) := by
  rw [checkDuplicate, if_pos rfl, checkDedupeHash, if_neg h]

theorem checkDuplicate_table (h : 0 < getMessageTimeS payload) :
    ∃ digests, (checkDuplicate md5 true hashes now payload).2 =
        Function.update hashes (getMessageTimeS payload) (some ⟨digests, hrtimeS now⟩) ∧
      ∀ d, d ∈ digests ↔ d = md5 payload ∨ d ∈ (getDedupeHash hashes now (getMessageTimeS payload)).hash := by
  have htouched : (getDedupeHash hashes now (getMessageTimeS payload)).lastTouchedS = hrtimeS now := by
    unfold getDedupeHash
    split <;> rfl
  rw [checkDuplicate, if_pos rfl, checkDedupeHash, if_pos h]
  by_cases hin : md5 payload ∈ (getDedupeHash hashes now (getMessageTimeS payload)).hash
  · simp only [if_pos hin]
    refine ⟨_, by rw [← htouched], fun d => ⟨.inr, ?_⟩⟩
    rintro (rfl | hd)
    · exact hin
    · exact hd
  · simp only [if_neg hin]
    exact ⟨_, by rw [htouched], fun d => List.mem_cons⟩

theorem checkDuplicate_eq_true_iff :
    (checkDuplicate md5 true hashes now payload).1 = true ↔
      0 < getMessageTimeS payload ∧ md5 payload ∈
        (getDedupeHash hashes now (getMessageTimeS payload)).hash := by
  by_cases h : 0 < getMessageTimeS payload
  · rw [checkDuplicate, if_pos rfl, checkDedupeHash, if_pos h]
    by_cases hin : md5 payload ∈ (getDedupeHash hashes now (getMessageTimeS payload)).hash
    · simp [h, hin]
    · simp [hin]
  · simp [checkDuplicate_of_zero h, h]

theorem dedupeStep_message : dedupeStep md5 hashes (now, .message payload) =
    (checkDuplicate md5 true hashes now payload).2 := rfl

theorem handleFqMessage_eq_some_iff :
    (handleFqMessage md5 true true hashes now payload).1 = some payload ↔
      (checkDuplicate md5 true hashes now payload).1 = false := by
  rw [handleFqMessage, if_pos rfl]
  cases h : (checkDuplicate md5 true hashes now payload).1 <;> simp [h]

omit [DecidableEq δ] in
theorem getDedupeHash_mem {d : δ} {whence : Nat} :
    d ∈ (getDedupeHash hashes now whence).hash ↔ ∃ table, hashes whence = some table ∧ d ∈ table.hash := by
  unfold getDedupeHash
  cases hashes whence <;> simp

theorem remembers_message (h : 0 < getMessageTimeS payload) :
    Remembers md5 (dedupeStep md5 hashes (now, .message payload)) now payload := by
  obtain ⟨digests, hstep, hmem⟩ := @checkDuplicate_table δ _ md5 hashes now payload h
  refine ⟨⟨digests, hrtimeS now⟩, ?_, (hmem _).mpr (.inl rfl), le_refl _⟩
  rw [dedupeStep_message, hstep, Function.update_self]

theorem Remembers.after_message (hr : Remembers md5 hashes since payload) (hle : since ≤ now) :
    Remembers md5 (dedupeStep md5 hashes (now, .message other)) since payload := by
  rw [dedupeStep_message]
  by_cases h : 0 < getMessageTimeS other
  · obtain ⟨digests, hstep, hmem⟩ := @checkDuplicate_table δ _ md5 hashes now other h
    obtain ⟨table, hfound, hin, htouched⟩ := hr
    rw [hstep]
    by_cases hsame : getMessageTimeS payload = getMessageTimeS other
    · refine ⟨⟨digests, hrtimeS now⟩, by rw [hsame, Function.update_self], (hmem _).mpr (.inr ?_),
        hrtimeS_mono hle⟩
      exact getDedupeHash_mem.mpr ⟨table, hsame ▸ hfound, hin⟩
    · exact ⟨table, by rw [Function.update_of_ne hsame, hfound], hin, htouched⟩
  · rw [checkDuplicate_of_zero h]
    exact hr

theorem Remembers.after_prune (hr : Remembers md5 hashes since payload)
    (hwindow : now ≤ since + 10 * 1000000000) :
    Remembers md5 (dedupeStep md5 hashes (now, .prune)) since payload := by
  obtain ⟨table, hfound, hin, htouched⟩ := hr
  -- Ten seconds later the whole seconds differ by ten at most.
  have hseconds : hrtimeS now ≤ hrtimeS since + 10 := by
    have h := hrtimeS_mono hwindow
    rwa [hrtimeS, hrtimeS, Nat.add_mul_div_right _ _ (by norm_num)] at h
  have hkept : expirable now table = false := by
    rw [expirable, Bool.and_eq_false_iff, decide_eq_false_iff_not, decide_eq_false_iff_not]
    omega
  refine ⟨table, ?_, hin, htouched⟩
  change (hashes _).filter _ = _
  rw [hfound, Option.filter_some, hkept]
  rfl

theorem Remembers.after_run {events : List (Nat × DedupeEvent)} (hr : Remembers md5 hashes since payload)
    (hevents : ∀ e ∈ events, since ≤ e.1 ∧ e.1 ≤ since + 10 * 1000000000) :
    Remembers md5 (dedupeRun md5 hashes events) since payload := by
  induction events generalizing hashes with
  | nil => exact hr
  | cons e events ih =>
    obtain ⟨hlo, hhi⟩ := hevents e List.mem_cons_self
    apply ih _ (fun e' he' => hevents e' (List.mem_cons_of_mem _ he'))
    obtain ⟨at', ev⟩ := e
    cases ev with
    | message other => exact hr.after_message hlo
    | prune => exact hr.after_prune hhi

def OnlySeen (md5 : Bytes → δ) (hashes : DedupeHashes δ) (events : List (Nat × DedupeEvent)) : Prop :=
  ∀ whence table, hashes whence = some table →
    ∀ d ∈ table.hash, ∃ at' payload, (at', DedupeEvent.message payload) ∈ events ∧ d = md5 payload

theorem OnlySeen.step {seen : List (Nat × DedupeEvent)} (h : OnlySeen md5 hashes seen)
    (e : Nat × DedupeEvent) : OnlySeen md5 (dedupeStep md5 hashes e) (seen ++ [e]) := by
  have hbefore : ∀ whence table, hashes whence = some table → ∀ d ∈ table.hash,
      ∃ at' payload, (at', DedupeEvent.message payload) ∈ seen ++ [e] ∧ d = md5 payload := by
    intro whence table hfound d hd
    obtain ⟨at', payload, hin, rfl⟩ := h whence table hfound d hd
    exact ⟨at', payload, List.mem_append_left _ hin, rfl⟩
  obtain ⟨now, ev⟩ := e
  cases ev with
  | prune =>
    intro whence table hfound
    exact hbefore whence table (Option.filter_eq_some_iff.mp hfound).1
  | message payload =>
    rw [dedupeStep_message]
    by_cases hpos : 0 < getMessageTimeS payload
    · obtain ⟨digests, hstep, hmem⟩ := @checkDuplicate_table δ _ md5 hashes now payload hpos
      intro whence table hfound d hd
      rw [hstep] at hfound
      by_cases hsame : whence = getMessageTimeS payload
      · rw [hsame, Function.update_self] at hfound
        obtain rfl := Option.some.inj hfound
        rcases (hmem d).mp hd with rfl | hold
        · exact ⟨now, payload, List.mem_append_right _ (List.mem_singleton_self _), rfl⟩
        · obtain ⟨table, htable, hin⟩ := getDedupeHash_mem.mp hold
          exact hbefore _ table htable d hin
      · rw [Function.update_of_ne hsame] at hfound
        exact hbefore whence table hfound d hd
    · rw [checkDuplicate_of_zero hpos]
      exact hbefore

theorem OnlySeen.run {seen events : List (Nat × DedupeEvent)} (h : OnlySeen md5 hashes seen) :
    OnlySeen md5 (dedupeRun md5 hashes events) (seen ++ events) := by
  induction events generalizing hashes seen with
  | nil => rwa [List.append_nil]
  | cons e events ih =>
    have hrest := ih (h.step e)
    rwa [List.append_assoc, List.singleton_append] at hrest

theorem distributed_of_new {events : List (Nat × DedupeEvent)}
    (hmd5 : ∀ e ∈ events, ∀ p, e.2 = .message p → md5 p = md5 payload → p = payload)
    (hnew : ∀ e ∈ events, e.2 ≠ .message payload) : Distributed md5 events now payload := by
  have hseen : OnlySeen md5 (dedupeRun md5 (fun _ => none) events) ([] ++ events) := by
    apply OnlySeen.run
    intro whence table hfound
    exact absurd hfound (by simp)
  rw [Distributed, handleFqMessage_eq_some_iff, ← Bool.not_eq_true]
  intro hdup
  obtain ⟨-, hin⟩ := checkDuplicate_eq_true_iff.mp hdup
  obtain ⟨table, hfound, hd⟩ := getDedupeHash_mem.mp hin
  obtain ⟨at', p, hmem, heq⟩ := hseen _ table hfound _ hd
  have hp : p = payload := hmd5 _ hmem p rfl heq.symm
  exact hnew _ hmem (by rw [hp])

theorem repeated_distributed_iff {events : List (Nat × DedupeEvent)} {at' : Nat}
    (hsorted : events.Pairwise fun a b => a.1 ≤ b.1) (hnow : ∀ e ∈ events, e.1 ≤ now)
    (hin : (at', DedupeEvent.message payload) ∈ events) (hwindow : now ≤ at' + 10 * 1000000000) :
    ¬ Distributed md5 events now payload ↔ 0 < getMessageTimeS payload := by
  rw [Distributed, handleFqMessage_eq_some_iff, Bool.not_eq_false, checkDuplicate_eq_true_iff]
  refine ⟨And.left, fun hpos => ⟨hpos, ?_⟩⟩
  obtain ⟨before, after, rfl⟩ := List.append_of_mem hin
  have hafter : ∀ e ∈ after, at' ≤ e.1 ∧ e.1 ≤ at' + 10 * 1000000000 := by
    intro e he
    have hle := (List.pairwise_cons.mp (List.pairwise_append.mp hsorted).2.1).1 e he
    exact ⟨hle, (hnow e (by simp [he])).trans hwindow⟩
  have hrun : dedupeRun md5 (fun _ => none) (before ++ (at', .message payload) :: after) =
      dedupeRun md5 (dedupeStep md5 (dedupeRun md5 (fun _ => none) before) (at', .message payload))
        after := by
    simp only [dedupeRun, List.foldl_append, List.foldl_cons]
  have hseen := @remembers_message δ _ md5 (dedupeRun md5 (fun _ => none) before) at' payload hpos
  obtain ⟨table, hfound, hd, -⟩ := hseen.after_run hafter
  rw [hrun]
  exact getDedupeHash_mem.mpr ⟨table, hfound, hd⟩

end Suppression

structure NoitMessage where
  kind : Bytes
  address : Fin 4 → Fin 256
  time : Bytes
  rest : Option Bytes
  kind_clean : 9 ∉ kind
  time_clean : 9 ∉ time
  time_pos : 0 < strtoll time

namespace NoitMessage

def addressText (address : Fin 4 → Fin 256) : Bytes :=
  decimal (address 0) ++ 46 :: (decimal (address 1) ++
    46 :: (decimal (address 2) ++ 46 :: decimal (address 3)))

def tail (rest : Option Bytes) : Bytes :=
  match rest with
  | none => []
  | some r => 9 :: r

def text (m : NoitMessage) : Bytes :=
  m.kind ++ 9 :: (addressText m.address ++ 9 :: (m.time ++ tail m.rest))

/-- The number behind the first tab at the tenth byte or later is not zero: with a short
first column this is the time, unless the second tab stands before the tenth byte. -/
def TimeFound (m : NoitMessage) : Prop :=
  if 10 ≤ m.kind.length then m.address 0 ≠ 0
  else 10 ≤ m.kind.length + 1 + (addressText m.address).length ∨ ∃ r, m.rest = some r ∧ strtoll r ≠ 0

end NoitMessage

theorem dropWhile_tab {a b : Bytes} (h : 9 ∉ a) : (a ++ 9 :: b).dropWhile (· != 9) = 9 :: b := by
  rw [List.dropWhile_append_of_pos]
  · rfl
  · intro c hc
    exact bne_iff_ne.mpr (fun heq => h (heq ▸ hc))

theorem getMessageTimeS_of_tab {a b : Bytes} (hlen : minimumBytesBeforeSecondTab ≤ a.length)
    (hclean : 9 ∉ a.drop minimumBytesBeforeSecondTab) :
    0 < getMessageTimeS (a ++ 9 :: b) ↔ strtoll b ≠ 0 := by
  have hlong : ¬ (a ++ 9 :: b).length ≤ minimumBytesBeforeSecondTab := by
    rw [List.length_append, List.length_cons]
    omega
  have hrange := strtoll_range b
  rw [getMessageTimeS, if_neg hlong, List.drop_append_of_le_length hlen, dropWhile_tab hclean]
  simp only
  omega

theorem drop_behind_tab {a b : Bytes} {n : Nat} (h : a.length < n) (hb : 9 ∉ b) :
    9 ∉ (a ++ 9 :: b).drop n := by
  obtain ⟨k, rfl⟩ := Nat.exists_eq_add_of_lt h
  rw [Nat.add_assoc, List.drop_length_add_append, List.drop_succ_cons]
  exact fun hmem => hb (List.mem_of_mem_drop hmem)

theorem getMessageTimeS_of_no_tab {msg : Bytes} (hclean : 9 ∉ msg.drop minimumBytesBeforeSecondTab) :
    getMessageTimeS msg = 0 := by
  have hdrop : (msg.drop minimumBytesBeforeSecondTab).dropWhile (· != 9) = [] := by
    rw [List.dropWhile_eq_nil_iff]
    intro c hc
    exact bne_iff_ne.mpr (fun heq => hclean (heq ▸ hc))
  rw [getMessageTimeS, hdrop]
  split <;> rfl

namespace NoitMessage

theorem addressText_clean (address : Fin 4 → Fin 256) : 9 ∉ addressText address := by
  have hdec : ∀ n, (9 : UInt8) ∉ decimal n := fun n => not_mem_decimal rfl
  simp [addressText, hdec]

theorem addressText_length (address : Fin 4 → Fin 256) : 7 ≤ (addressText address).length := by
  have hdec : ∀ n, 0 < (decimal n).length := fun n => List.length_pos_of_ne_nil (decimal_ne_nil n)
  have h0 := hdec (address 0)
  have h1 := hdec (address 1)
  have h2 := hdec (address 2)
  have h3 := hdec (address 3)
  simp only [addressText, List.length_append, List.length_cons]
  omega

theorem time_dropWhile (m : NoitMessage) : m.time.dropWhile isSpace ≠ [] :=
  dropWhile_of_strtoll_ne_zero m.time_pos.ne'

theorem strtoll_time (m : NoitMessage) : strtoll (m.time ++ tail m.rest) ≠ 0 := by
  cases m.rest with
  | none => rw [tail, List.append_nil]; exact m.time_pos.ne'
  | some r => rw [tail, strtoll_append r m.time_dropWhile rfl]; exact m.time_pos.ne'

theorem strtoll_address (m : NoitMessage) (r : Bytes) :
    strtoll (addressText m.address ++ r) ≠ 0 ↔ m.address 0 ≠ 0 := by
  have hlt := (m.address 0).isLt
  rw [addressText, List.append_assoc, List.cons_append, strtoll_append _ (dropWhile_decimal _) rfl,
    strtoll_decimal, Ne, Ne, Fin.ext_iff, Fin.val_zero]
  omega

theorem timeFound_iff (m : NoitMessage) : 0 < getMessageTimeS m.text ↔ m.TimeFound := by
  have hlen := addressText_length m.address
  have hclean := addressText_clean m.address
  have htime : 0 < m.time.length :=
    List.length_pos_of_ne_nil (fun h => m.time_dropWhile (by rw [h]; rfl))
  by_cases hkind : 10 ≤ m.kind.length
  · -- The first tab is found, and the address is read as the time.
    rw [TimeFound, if_pos hkind, text,
      getMessageTimeS_of_tab hkind (fun h => m.kind_clean (List.mem_of_mem_drop h)), strtoll_address]
  rw [TimeFound, if_neg hkind]
  by_cases hsecond : 10 ≤ m.kind.length + 1 + (addressText m.address).length
  · have hsplit : m.text = (m.kind ++ 9 :: addressText m.address) ++ 9 :: (m.time ++ tail m.rest) := by
      simp [text]
    have hdrop : 9 ∉ (m.kind ++ 9 :: addressText m.address).drop minimumBytesBeforeSecondTab :=
      drop_behind_tab (not_le.mp hkind) hclean
    have hlong : 10 ≤ (m.kind ++ 9 :: addressText m.address).length := by
      rw [List.length_append, List.length_cons]
      omega
    rw [hsplit, getMessageTimeS_of_tab hlong hdrop]
    exact iff_of_true m.strtoll_time (.inl hsecond)
  · -- The second tab is passed over, and the text behind the third one is read.
    have hpassed : (m.kind ++ 9 :: addressText m.address).length < 10 := by
      rw [List.length_append, List.length_cons]
      omega
    have hlong : 10 ≤ ((m.kind ++ 9 :: addressText m.address) ++ 9 :: m.time).length := by
      simp only [List.length_append, List.length_cons]
      omega
    have hdrop := drop_behind_tab hpassed m.time_clean
    cases hrest : m.rest with
    | none =>
      have hsplit : m.text = (m.kind ++ 9 :: addressText m.address) ++ 9 :: m.time := by
        simp [text, hrest, tail]
      rw [hsplit, getMessageTimeS_of_no_tab hdrop]
      simp [hsecond]
    | some r =>
      have hsplit : m.text = ((m.kind ++ 9 :: addressText m.address) ++ 9 :: m.time) ++ 9 :: r := by
        simp [text, hrest, tail]
      rw [hsplit, getMessageTimeS_of_tab hlong hdrop]
      simp [hsecond]

end NoitMessage

/-- In every run, a message that comes again within ten seconds is kept back exactly when its
time is found, and one that has not come before is handed on. -/
theorem duplicate_suppression_iff {δ : Type} [DecidableEq δ] {md5 : Bytes → δ}
    {events : List (Nat × DedupeEvent)} {now : Nat} (m : NoitMessage)
    (hmd5 : ∀ e ∈ events, ∀ p, e.2 = .message p → md5 p = md5 m.text → p = m.text)
    (hsorted : events.Pairwise fun a b => a.1 ≤ b.1) (hnow : ∀ e ∈ events, e.1 ≤ now) :
    (∀ e ∈ events, e.2 = .message m.text → now ≤ e.1 + 10 * 1000000000 →
      (¬ Distributed md5 events now m.text ↔ m.TimeFound)) ∧
    ((∀ e ∈ events, e.2 ≠ .message m.text) → Distributed md5 events now m.text) := by
  refine ⟨?_, distributed_of_new hmd5⟩
  rintro ⟨at', event⟩ he rfl hwindow
  rw [repeated_distributed_iff hsorted hnow he hwindow]
  exact m.timeFound_iff

def metricFrom (address : Fin 4 → Fin 256) : NoitMessage where
  kind := [77]
  address := address
  time := [49, 55, 48, 48, 48, 48, 48, 48, 48, 48, 46, 49, 50, 51]
  rest := some
    [99, 48, 102, 102, 101, 101, 48, 48, 45, 49, 49, 49, 49, 45, 52, 50, 50, 50, 45, 56, 51, 51, 51, 45,
     52, 52, 52, 52, 52, 52, 52, 52, 52, 52, 52, 52, 9, 109, 9, 110, 9, 49]
  kind_clean := by decide
  time_clean := by decide
  time_pos := by decide +kernel

def oneMessage (m : NoitMessage) : List (Nat × DedupeEvent) := [(0, .message m.text), (5000000000, .prune)]

theorem duplicate_suppression_two :
    ¬ Distributed id (oneMessage (metricFrom ![10, 2, 3, 4])) 10000000000 (metricFrom ![10, 2, 3, 4]).text ∧
      Distributed id (oneMessage (metricFrom ![10, 2, 3, 4])) 10000000000
        (metricFrom ![10, 2, 3, 5]).text := by
  have hsorted : (oneMessage (metricFrom ![10, 2, 3, 4])).Pairwise fun a b => a.1 ≤ b.1 := by
    simp [oneMessage]
  have hnow : ∀ e ∈ oneMessage (metricFrom ![10, 2, 3, 4]), e.1 ≤ 10000000000 := by simp [oneMessage]
  constructor
  · have h := (duplicate_suppression_iff (metricFrom ![10, 2, 3, 4]) (fun _ _ _ _ h => h) hsorted hnow).1
      (0, .message (metricFrom ![10, 2, 3, 4]).text) List.mem_cons_self rfl (by norm_num)
    exact h.mpr (by unfold NoitMessage.TimeFound; decide +kernel)
  · exact (duplicate_suppression_iff (metricFrom ![10, 2, 3, 5]) (fun _ _ _ _ h => h) hsorted hnow).2
      (by decide +kernel)

theorem duplicate_distributed :
    Distributed id [(0, .message (metricFrom ![1, 2, 3, 4]).text)] 1000000000
      (metricFrom ![1, 2, 3, 4]).text := by
  decide +kernel

end Reconnoiter
