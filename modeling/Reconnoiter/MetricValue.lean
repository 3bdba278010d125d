import Reconnoiter.Decimal
import Reconnoiter.Canonical

/-! The values of metrics (`noit_check.c`): how the type of a text is guessed, how a value is
set in the statistics of a check, and how a text is coerced to a type. A `void *` is the
memory it points to. -/

namespace Reconnoiter

inductive MetricType where
  | int32
  | uint32
  | int64
  | uint64
  | double
  | string
  | guess
  deriving DecidableEq

structure Metric where
  metricName : Bytes
  metricType : MetricType
  metricValue : Option Bytes
  deriving DecidableEq

/-- What is done with a double by more than one of the modules. -/
structure Doubles (D : Type) where
  ofInt : Int → D
  eq : D → D → Bool

structure ReadsDoubles (D : Type) where
  read : Bytes → D

/-- `strtod` with its result in memory, and whether it takes any of the text. -/
structure Strtod extends ReadsDoubles Bytes where
  reads : Bytes → Bool
  length_read : ∀ s, (read s).length = 8

def cString (mem : Bytes) : Bytes := upTo 0 mem

def littleEndian (size n : Nat) : Bytes := (List.range size).map fun i => .ofNat (n / 256 ^ i)

inductive Scan where
  | int
  | double
  | notANumber
  deriving DecidableEq

def scanExponent : Bytes → Bool
  | sign :: d :: r => (sign == 45 || sign == 43) && isDigit d && (r.dropWhile isDigit).isEmpty
  | _ => false

def scanDecimal : Bytes → Scan
  | [] => .notANumber
  | d :: r =>
    if isDigit d then
      match r.dropWhile isDigit with
      | [] => .double
      | e :: r => if (e == 101 || e == 69) && scanExponent r then .double else .notANumber
    else .notANumber

def scanUnsigned : Bytes → Scan
  | 46 :: r => scanDecimal r
  | 48 :: r =>
    match r with
    | [] => .int
    | 46 :: r => scanDecimal r
    | _ => .notANumber
  | d :: r =>
    if isDigit d then
      match r.dropWhile isDigit with
      | [] => .int
      | 46 :: r => scanDecimal r
      | _ => .notANumber
    else .notANumber
  | [] => .notANumber

def scanNumber (s : Bytes) : Scan :=
  match s with
  | 45 :: r => scanUnsigned r
  | 43 :: r => scanUnsigned r
  | _ => scanUnsigned s

def splitTrailer (s : Bytes) : Bytes × Bytes :=
  let text := (s.dropWhile isSpace).rdropWhile isSpace
  let word := text.takeWhile fun c => !isSpace c
  let trailer := (text.dropWhile fun c => !isSpace c).dropWhile isSpace
  (if 2 ≤ word.length ∧ word.getLast? = some 37 then word.dropLast else word, trailer)

def guessType (strtod : Strtod) (s : Bytes) : MetricType × Option Bytes :=
  let (word, trailer) := splitTrailer s
  if trailer.any isDigit then (.string, none)
  else match scanNumber word with
    | .int =>
      if word.head? = some 45 then (.int64, some (littleEndian 8 (strtoll word % 2 ^ 64).toNat))
      else (.uint64, some (littleEndian 8 (strtoul word)))
    | .double => (.double, some (strtod.read word))
    | .notANumber => (.string, none)

/-- The check a metric is recorded for, and the limits that apply. `taken` are the metrics
that a module's hook takes over. -/
structure MetricEnv where
  strtod : Strtod
  textSizeLimit : Nat
  canonicalize : Bytes → Option Bytes
  tagset : Option Bytes
  taken : Bytes → Bool

def buildTagExtendedName (env : MetricEnv) (name : Bytes) : Option Bytes :=
  match env.tagset with
  | some tagset =>
    env.canonicalize ((name.take (maxMetricTaggedName - 1) ++ tagset).take (maxMetricTaggedName - 1))
  | none => env.canonicalize name

def metricSizes (textSizeLimit : Nat) (type : MetricType) (value : Bytes) : Nat :=
  match type with
  | .int32 | .uint32 => 4
  | .int64 | .uint64 | .double => 8
  | .string =>
    let len := (upTo 10 (cString value)).length + 1
    if textSizeLimit ≤ len then textSizeLimit + 1 else len
  | .guess => 0

def populateMetric (env : MetricEnv) (name : Bytes) (type : MetricType) (value : Option Bytes) :
    Option Metric :=
  let guessed := match type, value with
    | .guess, some v => guessType env.strtod (cString v)
    | type, _ => (type, none)
  if guessed.1 = .guess then none
  else
    let copied := value.map fun v =>
      let len := metricSizes env.textSizeLimit guessed.1 v
      if guessed.1 = .string then cString (v.take (len - 1)) else v.take len
    some ⟨name, guessed.1, guessed.2 <|> copied⟩

def statsSetMetric (env : MetricEnv) (name : Bytes) (type : MetricType) (value : Option Bytes) :
    Option Metric :=
  match buildTagExtendedName env name with
  | none => none
  | some taggedName =>
    match populateMetric env taggedName type value with
    | none => none
    | some m => if env.taken taggedName then none else some m

def isTrimmed (c : UInt8) : Bool := c == 9 || c == 10 || c == 13 || c == 32 || c == 34

def trim (s : Bytes) : Bytes := (s.rdropWhile isTrimmed).dropWhile isTrimmed

def readsInteger (s : Bytes) : Bool :=
  match s.dropWhile isSpace with
  | 45 :: d :: _ => isDigit d
  | 43 :: d :: _ => isDigit d
  | d :: _ => isDigit d
  | [] => false

/-- The type and the value that a text is coerced to. A text that is no number of the type
leaves the value out. -/
def coerceValue (strtod : Strtod) (t : MetricType) (v : Option Bytes) : MetricType × Option Bytes :=
  match v with
  | none => (t, none)
  | some v =>
    let safeV := trim ((cString v).take 255)
    let read := fun (reads : Bool) (value : Bytes) => (t, if reads then some value else none)
    match t with
    | .string => (t, some safeV)
    | .int32 => read (readsInteger safeV) (littleEndian 4 (strtoll safeV % 2 ^ 32).toNat)
    | .uint32 => read (readsInteger safeV) (littleEndian 4 (strtoul safeV % 2 ^ 32))
    | .int64 => read (readsInteger safeV) (littleEndian 8 (strtoll safeV % 2 ^ 64).toNat)
    | .uint64 => read (readsInteger safeV) (littleEndian 8 (strtoul safeV))
    | .double => read (strtod.reads safeV) (strtod.read safeV)
    | .guess =>
      let (t, replacement) := guessType strtod safeV
      (t, if t ≠ .guess then replacement else some safeV)

def metricCoerce (env : MetricEnv) (nameRaw : Bytes) (t : MetricType) (v : Option Bytes) : Option Metric :=
  if maxMetricTaggedName - 1 < nameRaw.length then none
  else (buildTagExtendedName env nameRaw).map fun taggedName =>
    ⟨taggedName, (coerceValue env.strtod t v).1, (coerceValue env.strtod t v).2⟩

theorem length_littleEndian (size n : Nat) : (littleEndian size n).length = size := by
  simp [littleEndian]

theorem guessType_cases (strtod : Strtod) (s : Bytes) :
    guessType strtod s = (.string, none) ∨
      ∃ t r, guessType strtod s = (t, some r) ∧ (t = .int64 ∨ t = .uint64 ∨ t = .double) ∧ r.length = 8 := by
  unfold guessType
  simp only
  by_cases htrailer : (splitTrailer s).2.any isDigit = true
  · rw [if_pos htrailer]
    exact .inl rfl
  rw [if_neg htrailer]
  cases scanNumber (splitTrailer s).1 with
  | int =>
    by_cases hneg : (splitTrailer s).1.head? = some 45
    · exact .inr ⟨_, _, if_pos hneg, .inl rfl, length_littleEndian 8 _⟩
    · exact .inr ⟨_, _, if_neg hneg, .inr (.inl rfl), length_littleEndian 8 _⟩
  | double => exact .inr ⟨_, _, rfl, .inr (.inr rfl), strtod.length_read _⟩
  | notANumber => exact .inl rfl

def isNumberChar (c : UInt8) : Bool :=
  isDigit c || c == 43 || c == 45 || c == 46 || c == 69 || c == 101

theorem isNumberChar_of_isDigit {c : UInt8} (h : isDigit c = true) : isNumberChar c = true := by
  simp [isNumberChar, h]

theorem numberChars_of_dropWhile {r : Bytes} (h : ∀ c ∈ r.dropWhile isDigit, isNumberChar c = true) :
    ∀ c ∈ r, isNumberChar c = true := by
  intro c hc
  rw [← @List.takeWhile_append_dropWhile _ isDigit r] at hc
  rcases List.mem_append.mp hc with hc | hc
  · exact isNumberChar_of_isDigit (List.mem_takeWhile_imp hc)
  · exact h c hc

theorem scanExponent_chars {r : Bytes} (h : scanExponent r = true) : ∀ c ∈ r, isNumberChar c = true := by
  match r, h with
  | sign :: d :: r, h =>
    simp only [scanExponent, Bool.and_eq_true, Bool.or_eq_true, beq_iff_eq, List.isEmpty_iff] at h
    obtain ⟨⟨hsign, hd⟩, hr⟩ := h
    intro c hc
    rcases List.mem_cons.mp hc with rfl | hc
    · rcases hsign with rfl | rfl <;> rfl
    rcases List.mem_cons.mp hc with rfl | hc
    · exact isNumberChar_of_isDigit hd
    · exact numberChars_of_dropWhile (by simp [hr]) c hc

theorem scanDecimal_chars {r : Bytes} (h : scanDecimal r ≠ .notANumber) : ∀ c ∈ r, isNumberChar c = true := by
  cases r with
  | nil => exact fun c hc => absurd hc List.not_mem_nil
  | cons d r =>
    rw [scanDecimal] at h
    by_cases hd : isDigit d = true
    · rw [if_pos hd] at h
      have hrest : ∀ c ∈ r.dropWhile isDigit, isNumberChar c = true := by
        cases hr : r.dropWhile isDigit with
        | nil => exact fun c hc => absurd hc List.not_mem_nil
        | cons e r' =>
          simp only [hr] at h
          by_cases he : ((e == 101 || e == 69) && scanExponent r') = true
          · rw [Bool.and_eq_true, Bool.or_eq_true, beq_iff_eq, beq_iff_eq] at he
            intro c hc
            rcases List.mem_cons.mp hc with rfl | hc
            · rcases he.1 with rfl | rfl <;> rfl
            · exact scanExponent_chars he.2 c hc
          · rw [if_neg he] at h
            exact absurd rfl h
      intro c hc
      rcases List.mem_cons.mp hc with rfl | hc
      · exact isNumberChar_of_isDigit hd
      · exact numberChars_of_dropWhile hrest c hc
    · rw [if_neg hd] at h
      exact absurd rfl h

theorem scanUnsigned_chars {s : Bytes} (h : scanUnsigned s ≠ .notANumber) :
    ∀ c ∈ s, isNumberChar c = true := by
  have hpoint : ∀ {r : Bytes}, scanDecimal r ≠ .notANumber →
    ∀ c ∈ (46 :: r : Bytes), isNumberChar c = true := by
    intro r hr c hc
    rcases List.mem_cons.mp hc with rfl | hc
    · rfl
    · exact scanDecimal_chars hr c hc
  unfold scanUnsigned at h
  split at h
  · exact hpoint h
  · intro c hc
    rcases List.mem_cons.mp hc with rfl | hc
    · rfl
    split at h
    · exact absurd hc List.not_mem_nil
    · exact hpoint h c hc
    · exact absurd rfl h
  · next d r _ _ =>
    by_cases hd : isDigit d = true
    · rw [if_pos hd] at h
      have hrest : ∀ c ∈ r.dropWhile isDigit, isNumberChar c = true := by
        split at h
        · next hr => simp [hr]
        · next hr => rw [hr]; exact hpoint h
        · exact absurd rfl h
      intro c hc
      rcases List.mem_cons.mp hc with rfl | hc
      · exact isNumberChar_of_isDigit hd
      · exact numberChars_of_dropWhile hrest c hc
    · rw [if_neg hd] at h
      exact absurd rfl h
  · exact fun c hc => absurd hc List.not_mem_nil

theorem scanNumber_chars {s : Bytes} (h : scanNumber s ≠ .notANumber) : ∀ c ∈ s, isNumberChar c = true := by
  have hsign : ∀ {c : UInt8} {r : Bytes}, isNumberChar c = true → scanUnsigned r ≠ .notANumber →
      ∀ d ∈ c :: r, isNumberChar d = true := by
    intro c r hc hr d hd
    rcases List.mem_cons.mp hd with rfl | hd
    · exact hc
    · exact scanUnsigned_chars hr d hd
  unfold scanNumber at h
  split at h
  · exact hsign rfl h
  · exact hsign rfl h
  · exact scanUnsigned_chars h

theorem rdropWhile_append_of_last {p : UInt8 → Bool} {l : Bytes} (r : Bytes) (hl : l ≠ [])
    (h : p (l.getLast hl) = false) : (l ++ r).rdropWhile p = l ++ r.rdropWhile p := by
  have hstop : l.reverse.dropWhile p = l.reverse := by
    rw [List.dropWhile_eq_self_iff]
    intro hpos
    simpa [List.getElem_reverse, List.getLast_eq_getElem] using h
  rw [List.rdropWhile, List.rdropWhile, List.reverse_append, List.dropWhile_append]
  split_ifs with hempty
  · rw [hstop, List.reverse_reverse, List.isEmpty_iff.mp hempty, List.reverse_nil, List.append_nil]
  · rw [List.reverse_append, List.reverse_reverse]

theorem dropWhile_append_of_head {p : UInt8 → Bool} {c : UInt8} (a r : Bytes) (h : p c = false) :
    (a ++ c :: r).dropWhile p = a.dropWhile p ++ c :: r := by
  rw [List.dropWhile_append]
  split_ifs with hempty
  · rw [List.isEmpty_iff.mp hempty, List.dropWhile_cons_of_neg (by rw [h]; exact Bool.false_ne_true),
      List.nil_append]
  · rfl

theorem any_digit_dropWhile (l : Bytes) : (l.dropWhile isSpace).any isDigit = l.any isDigit := by
  induction l with
  | nil => rfl
  | cons c l ih =>
    by_cases hc : isSpace c = true
    · have hdigit : isDigit c = false := by
        by_contra hd
        rw [(digit_first (Bool.not_eq_false _ ▸ hd)).1] at hc
        exact Bool.noConfusion hc
      rw [List.dropWhile_cons_of_pos hc, ih, List.any_cons, hdigit, Bool.false_or]
    · rw [List.dropWhile_cons_of_neg hc]

theorem any_digit_stripped (b : Bytes) :
    ((b.rdropWhile isSpace).dropWhile isSpace).any isDigit = b.any isDigit := by
  rw [any_digit_dropWhile, List.rdropWhile, List.any_reverse, any_digit_dropWhile, List.any_reverse]

theorem head_rdropWhile {p q : UInt8 → Bool} {b : Bytes} (hb : ∀ c ∈ b.head?, q c = true) :
    ∀ c ∈ (b.rdropWhile p).head?, q c = true := by
  intro c hc
  obtain ⟨r, hr⟩ := List.head?_eq_some_iff.mp hc
  obtain ⟨t, ht⟩ := @List.rdropWhile_prefix _ p b
  exact hb c (by rw [← ht, hr]; rfl)

theorem takeWhile_word {w b : Bytes} (hw : ∀ c ∈ w, isSpace c = false)
    (hb : ∀ c ∈ b.head?, isSpace c = true) :
    (w ++ b).takeWhile (fun c => !isSpace c) = w ∧ (w ++ b).dropWhile (fun c => !isSpace c) = b := by
  induction w with
  | nil =>
    cases b with
    | nil => exact ⟨rfl, rfl⟩
    | cons c b => simp [hb c rfl]
  | cons c w ih =>
    obtain ⟨htake, hdrop⟩ := ih (fun d hd => hw d (List.mem_cons_of_mem c hd))
    simp [hw c List.mem_cons_self, htake, hdrop]

theorem splitTrailer_word {a w b : Bytes} (ha : ∀ c ∈ a, isSpace c = true) (hne : w ≠ [])
    (hw : ∀ c ∈ w, isSpace c = false) (hb : ∀ c ∈ b.head?, isSpace c = true) :
    splitTrailer (a ++ (w ++ b)) = (if 2 ≤ w.length ∧ w.getLast? = some 37 then w.dropLast else w,
      (b.rdropWhile isSpace).dropWhile isSpace) := by
  have hdrop : (a ++ (w ++ b)).dropWhile isSpace = w ++ b := by
    obtain ⟨c, w', rfl⟩ := List.exists_cons_of_ne_nil hne
    rw [List.cons_append, dropWhile_append_of_head a _ (hw c List.mem_cons_self),
      List.dropWhile_eq_nil_iff.mpr ha, List.nil_append]
  have htext : (w ++ b).rdropWhile isSpace = w ++ b.rdropWhile isSpace :=
    rdropWhile_append_of_last b hne (hw _ (List.getLast_mem hne))
  obtain ⟨htake, hrest⟩ := takeWhile_word hw (@head_rdropWhile isSpace isSpace b hb)
  simp only [splitTrailer, hdrop, htext, htake, hrest]

theorem words_cases (s : Bytes) : ∃ a w b, s = a ++ (w ++ b) ∧ (∀ c ∈ a, isSpace c = true) ∧
    (∀ c ∈ w, isSpace c = false) ∧ (∀ c ∈ b.head?, isSpace c = true) ∧ (w = [] → b = []) := by
  refine ⟨s.takeWhile isSpace, (s.dropWhile isSpace).takeWhile (fun c => !isSpace c),
    (s.dropWhile isSpace).dropWhile (fun c => !isSpace c), ?_, fun c hc => List.mem_takeWhile_imp hc,
    fun c hc => by simpa using List.mem_takeWhile_imp hc, fun c hc => ?_, fun hnil => ?_⟩
  · rw [List.takeWhile_append_dropWhile, List.takeWhile_append_dropWhile]
  · have hstop := List.head?_dropWhile_not (fun c => !isSpace c) (s.dropWhile isSpace)
    rw [Option.mem_def.mp hc] at hstop
    simpa using hstop
  · cases hd : s.dropWhile isSpace with
    | nil => rfl
    | cons c r =>
      have hstop := List.head?_dropWhile_not isSpace s
      rw [hd] at hstop
      have hc : isSpace c = false := by simpa using hstop
      rw [hd, List.takeWhile_cons_of_pos (by rw [hc]; rfl)] at hnil
      exact absurd hnil (List.cons_ne_nil _ _)

theorem guessType_word (strtod : Strtod) {a w b : Bytes} (ha : ∀ c ∈ a, isSpace c = true) (hne : w ≠ [])
    (hw : ∀ c ∈ w, isSpace c = false) (hb : ∀ c ∈ b.head?, isSpace c = true)
    (hdigits : b.any isDigit = false) :
    guessType strtod (a ++ (w ++ b)) = guessType strtod w := by
  have hlone := @splitTrailer_word [] w [] (by simp) hne hw (by simp)
  rw [List.nil_append, List.append_nil] at hlone
  have hstripped := any_digit_stripped b
  rw [hdigits] at hstripped
  simp only [guessType, splitTrailer_word ha hne hw hb, hlone, hstripped]
  rfl

theorem word_chars {strtod : Strtod} {w : Bytes} (hne : w ≠ []) (hw : ∀ c ∈ w, isSpace c = false)
    (h : (guessType strtod w).1 ≠ .string) : ∀ c ∈ w, isTrimmed c = false := by
  have hnumber : ∀ c : UInt8, isNumberChar c = true → isTrimmed c = false := by decide +kernel
  have hlone := @splitTrailer_word [] w [] (by simp) hne hw (by simp)
  rw [List.nil_append, List.append_nil] at hlone
  have hscan : scanNumber (splitTrailer w).1 ≠ .notANumber := by
    intro hnot
    apply h
    simp only [guessType, hnot]
    split <;> rfl
  rw [hlone] at hscan
  intro c hc
  by_cases hpercent : 2 ≤ w.length ∧ w.getLast? = some 37
  · simp only [if_pos hpercent] at hscan
    have hlast : w.getLast hne = 37 := by
      rw [List.getLast?_eq_some_getLast hne] at hpercent
      exact Option.some.inj hpercent.2
    rw [← List.dropLast_append_getLast hne, hlast] at hc
    rcases List.mem_append.mp hc with hc | hc
    · exact hnumber c (scanNumber_chars hscan c hc)
    · rw [List.mem_singleton.mp hc]
      rfl
  · simp only [if_neg hpercent] at hscan
    exact hnumber c (scanNumber_chars hscan c hc)

theorem guessType_trim {strtod : Strtod} {s : Bytes} (h : (guessType strtod s).1 ≠ .string) :
    guessType strtod (trim s) = guessType strtod s := by
  obtain ⟨a, w, b, rfl, ha, hw, hb, hnil⟩ := words_cases s
  by_cases hne : w = []
  · -- Blanks only.
    rw [hnil hne, hne, List.append_nil, List.append_nil] at h
    have hblank : splitTrailer a = ([], []) := by
      simp [splitTrailer, List.dropWhile_eq_nil_iff.mpr ha]
    simp [guessType, hblank, scanNumber, scanUnsigned] at h
  have hdigits : b.any isDigit = false := by
    by_contra hany
    rw [Bool.not_eq_false, ← any_digit_stripped] at hany
    simp [guessType, splitTrailer_word ha hne hw hb, hany] at h
  have hguess := guessType_word strtod ha hne hw hb hdigits
  rw [hguess] at h ⊢
  have htrimmed := word_chars hne hw h
  have htrim : trim (a ++ (w ++ b)) = a.dropWhile isTrimmed ++ (w ++ b.rdropWhile isTrimmed) := by
    have hlast : (a ++ w).getLast (by simp [hne]) = w.getLast hne := List.getLast_append_of_ne_nil _ hne
    rw [trim, ← List.append_assoc, rdropWhile_append_of_last b (by simp [hne])
      (by rw [hlast]; exact htrimmed _ (List.getLast_mem hne)), List.append_assoc]
    obtain ⟨c, w', rfl⟩ := List.exists_cons_of_ne_nil hne
    rw [List.cons_append, dropWhile_append_of_head a _ (htrimmed c List.mem_cons_self)]
  rw [htrim]
  apply guessType_word strtod _ hne hw (head_rdropWhile hb)
  · rw [List.any_eq_false] at hdigits ⊢
    exact fun c hc => hdigits c ((@List.rdropWhile_prefix _ isTrimmed b).subset hc)
  · exact fun c hc => ha c ((List.dropWhile_sublist _).subset hc)

end Reconnoiter
