import Reconnoiter.TagAcceptance

/-! `noit_metric_tagset_builder_add_many`: tags are taken off the front of a text
one by one. The text lies in memory, and the loop looks at the byte behind each
tag, be it part of the text or not; it moves on by the stored size of the tag. -/

namespace Reconnoiter

structure AddState where
  mem : Bytes
  len : Nat
  tags : List Tag
  deriving DecidableEq, Repr

def addManyStep (s : AddState) : Option AddState :=
  match parseOne (s.mem.take s.len) with
  | none => none
  | some r =>
    let totalSize := r.size % 65536
    let tags := if r.tooLong then s.tags else r.tag :: s.tags
    let mem := s.mem.drop totalSize
    let len := s.len - totalSize
    if (s.mem.drop r.size).head? = some 44 then some ⟨mem.drop 1, subSize len 1, tags⟩
    else if r.tooLong ∨ totalSize = s.len then some ⟨mem, len, tags⟩
    else none

def addManyRun : Nat → AddState → Option (Option (List Tag))
  | 0, s => if s.len = 0 then some (some s.tags) else none
  | n + 1, s =>
    if s.len = 0 then some (some s.tags)
    else
      match addManyStep s with
      | none => some none
      | some s' => addManyRun n s'

def AddState.start (str behind : Bytes) (tags : List Tag) : AddState :=
  ⟨str ++ behind, str.length, tags⟩

def AddPass (s s' : AddState) : Prop := s.len ≠ 0 ∧ addManyStep s = some s'

def Resumes (s s' : AddState) : Prop :=
  ∃ t, 44 ∉ t ∧ 0 < t.length ∧ t <+: s.mem ∧
    ((t.length = s.len ∧ s'.mem = s.mem.drop t.length ∧ s'.len = 0) ∨
      (t.length < s.len ∧ (s.mem.drop t.length).head? = some 44 ∧
        s'.mem = s.mem.drop (t.length + 1) ∧ s'.len = s.len - (t.length + 1)))

def Progresses (s₀ : AddState) : Prop :=
  (∀ s s', Relation.ReflTransGen AddPass s₀ s → AddPass s s' → Resumes s s') ∧
    ∃ n, (addManyRun n s₀).isSome = true

def Steady (str behind : Bytes) : Prop :=
  ∀ pre t post, str.splitOn 44 = pre ++ t :: post →
    (∀ u ∈ pre, (parseOne (u ++ [44])).isSome = true) →
    (parseOne (if post = [] then t else t ++ [44])).isSome = true →
    t.length < 65536 ∧ (post = [] → behind.head? ≠ some 44)

section

variable {t r behind : Bytes} {tags : List Tag}

theorem isSome_parseOne_comma (ht : 44 ∉ t) :
    (parseOne (t ++ 44 :: r)).isSome = (parseOne (t ++ [44])).isSome := by
  rw [parseOne_before_comma ht, parseOne_before_comma ht]

def addedTags (t : Bytes) (tags : List Tag) : List Tag :=
  if maxPairLen < t.length then tags else storedAs t :: tags

theorem parsedAs_size (t : Bytes) : (parsedAs t).size = t.length := by
  unfold parsedAs
  split_ifs <;> rfl

theorem parsedAs_tags (t : Bytes) (tags : List Tag) :
    (if (parsedAs t).tooLong = true then tags else (parsedAs t).tag :: tags) = addedTags t tags := by
  unfold parsedAs addedTags
  by_cases hlong : maxPairLen < t.length
  · simp [hlong]
  · simp [hlong]

theorem addManyStep_comma (ht : 44 ∉ t) :
    addManyStep (.start (t ++ 44 :: r) behind tags) =
      if (parseOne (t ++ [44])).isSome = true then
        some ⟨((t ++ 44 :: r) ++ behind).drop (t.length % 65536 + 1),
          subSize ((t ++ 44 :: r).length - t.length % 65536) 1, addedTags t tags⟩
      else none := by
  rw [← @isSome_parseOne_comma t r ht, addManyStep, AddState.start]
  dsimp only
  rw [List.take_left]
  cases hp : parseOne (t ++ 44 :: r) with
  | none => rfl
  | some p =>
    rw [parseOne_before_comma ht] at hp
    split_ifs at hp
    obtain rfl := Option.some.inj hp
    have hhead : (((t ++ 44 :: r) ++ behind).drop t.length).head? = some 44 := by simp
    dsimp only
    rw [parsedAs_size, parsedAs_tags, Option.isSome_some, if_pos rfl]
    rw [if_pos hhead, List.drop_drop]

theorem addManyStep_end (ht : 44 ∉ t) :
    addManyStep (.start t behind tags) =
      if (parseOne t).isSome = true then
        if behind.head? = some 44 then
          some ⟨(t ++ behind).drop (t.length % 65536 + 1), subSize (t.length - t.length % 65536) 1,
            addedTags t tags⟩
        else some ⟨(t ++ behind).drop (t.length % 65536), t.length - t.length % 65536,
          addedTags t tags⟩
      else none := by
  rw [addManyStep, AddState.start]
  dsimp only
  rw [List.take_left]
  cases hp : parseOne t with
  | none => rfl
  | some p =>
    rw [parseOne_at_end ht] at hp
    split_ifs at hp
    obtain rfl := Option.some.inj hp
    have hstored : (parsedAs t).tooLong = true ∨ t.length % 65536 = t.length := by
      unfold parsedAs
      split_ifs with hlong
      · exact Or.inl rfl
      · right
        apply Nat.mod_eq_of_lt
        simp only [maxPairLen] at hlong
        omega
    dsimp only
    rw [parsedAs_size, parsedAs_tags, Option.isSome_some, if_pos rfl]
    rw [List.drop_left, if_pos hstored, List.drop_drop]

end

/-! Progress of the loop, pass by pass. -/

section

variable {s s' : AddState}

theorem progresses_of_len (h : s.len = 0) : Progresses s := by
  refine ⟨fun x x' hx hpass => ?_, 0, by simp [addManyRun, h]⟩
  obtain rfl | ⟨y, hy, -⟩ := hx.cases_head
  · exact absurd h hpass.1
  · exact absurd h hy.1

theorem progresses_of_refused (hlen : s.len ≠ 0) (h : addManyStep s = none) : Progresses s := by
  refine ⟨fun x x' hx hpass => ?_, 1, by simp [addManyRun, hlen, h]⟩
  obtain rfl | ⟨y, hy, -⟩ := hx.cases_head
  · have hstep := hpass.2
    rw [h] at hstep
    cases hstep
  · have hstep := hy.2
    rw [h] at hstep
    cases hstep

theorem AddPass.unique {s'' : AddState} (h : AddPass s s') (h' : AddPass s s'') : s'' = s' :=
  Option.some.inj (h'.2.symm.trans h.2)

theorem progresses_iff_of_pass (h : AddPass s s') :
    Progresses s ↔ Resumes s s' ∧ Progresses s' := by
  constructor
  · rintro ⟨hall, n, hn⟩
    refine ⟨hall s s' .refl h, fun x x' hx => hall x x' (.head h hx), ?_⟩
    cases n with
    | zero => simp [addManyRun, h.1] at hn
    | succ n =>
      rw [addManyRun, if_neg h.1, h.2] at hn
      exact ⟨n, hn⟩
  · rintro ⟨hres, hall, n, hn⟩
    refine ⟨fun x x' hx hpass => ?_, n + 1, ?_⟩
    · obtain rfl | ⟨y, hy, hyx⟩ := hx.cases_head
      · rwa [h.unique hpass]
      · rw [h.unique hy] at hyx
        exact hall x x' hyx hpass
    · rw [addManyRun, if_neg h.1, h.2]
      exact hn

end

section

variable {t r behind : Bytes} {tags : List Tag} {s' : AddState}

theorem resumes_at (hres : Resumes (.start (t ++ 44 :: r) behind tags) s') (ht : 44 ∉ t) :
    s'.mem = r ++ behind ∧ s'.len = r.length := by
  obtain ⟨u, hu, -, hpre, ⟨hlen, -, -⟩ | ⟨-, hhead, hmem, hlen⟩⟩ := hres
  · -- The tag would be the whole text, which has a comma.
    have htext : u = t ++ 44 :: r := by
      obtain ⟨v, hv⟩ := hpre
      exact List.append_inj_left hv hlen
    rw [htext] at hu
    simp at hu
  · obtain ⟨v, hv⟩ := hpre
    rw [AddState.start] at hv hhead hmem hlen
    dsimp only at hv hhead hmem hlen
    rw [← hv, List.drop_left] at hhead
    obtain ⟨w, rfl⟩ := List.head?_eq_some_iff.mp hhead
    have hut : u = t := by
      have hcut := congrArg (upTo 44) hv
      rwa [upTo_append_cons hu, List.append_assoc, List.cons_append, upTo_append_cons ht] at hcut
    rw [hut] at hmem hlen
    refine ⟨?_, ?_⟩
    · rw [hmem, List.append_assoc, List.cons_append, ← List.drop_drop, List.drop_left]
      rfl
    · rw [hlen, List.length_append, List.length_cons]
      omega

theorem resumes_at_end (hres : Resumes (.start t behind tags) s') (ht : 44 ∉ t) : s'.len = 0 := by
  obtain ⟨u, -, -, hpre, ⟨-, -, hlen⟩ | ⟨hlt, hhead, -, -⟩⟩ := hres
  · exact hlen
  · -- The comma would be one of the text.
    rw [AddState.start] at hlt hhead
    dsimp only at hlt hhead
    rw [List.drop_append_of_le_length hlt.le] at hhead
    have hne : t.drop u.length ≠ [] := by
      rw [ne_eq, List.drop_eq_nil_iff]
      omega
    rw [List.head?_append_of_ne_nil _ hne] at hhead
    exact absurd (List.mem_of_mem_drop (List.mem_of_mem_head? hhead)) ht

theorem resumes_comma (ht : 44 ∉ t) (hne : t ≠ []) :
    Resumes (.start (t ++ 44 :: r) behind tags) (.start r behind (addedTags t tags)) := by
  refine ⟨t, ht, List.length_pos_iff.mpr hne, ⟨44 :: r ++ behind, by simp [AddState.start]⟩,
    Or.inr ⟨by simp [AddState.start], by simp [AddState.start], ?_, ?_⟩⟩
  · simp only [AddState.start]
    rw [List.append_assoc, ← List.drop_drop, List.drop_left]
    rfl
  · simp only [AddState.start, List.length_append, List.length_cons]
    omega

theorem addPass_comma (ht : 44 ∉ t) (hok : (parseOne (t ++ [44])).isSome = true)
    (hlen : t.length < 65536) :
    AddPass (.start (t ++ 44 :: r) behind tags) (.start r behind (addedTags t tags)) := by
  refine ⟨by simp [AddState.start], ?_⟩
  rw [addManyStep_comma ht, if_pos hok, Nat.mod_eq_of_lt hlen, AddState.start, Option.some.injEq,
    AddState.mk.injEq]
  refine ⟨?_, ?_, rfl⟩
  · rw [List.append_assoc, ← List.drop_drop, List.drop_left]
    rfl
  · simp only [List.length_append, List.length_cons, subSize]
    rw [if_pos (by omega)]
    omega

theorem progresses_comma (ht : 44 ∉ t) (hok : (parseOne (t ++ [44])).isSome = true) :
    Progresses (.start (t ++ 44 :: r) behind tags) ↔
      t.length < 65536 ∧ Progresses (.start r behind (addedTags t tags)) := by
  have hne : t ≠ [] := by
    rintro rfl
    cases hok
  by_cases hlen : t.length < 65536
  · rw [progresses_iff_of_pass (addPass_comma ht hok hlen)]
    simp [hlen, resumes_comma ht hne]
  · have hpass : AddPass (.start (t ++ 44 :: r) behind tags) _ :=
      ⟨by simp [AddState.start], by rw [addManyStep_comma ht, if_pos hok]⟩
    rw [progresses_iff_of_pass hpass]
    constructor
    · rintro ⟨hres, -⟩
      have hcount := (resumes_at hres ht).2
      simp only [List.length_append, List.length_cons, subSize] at hcount
      have hmod : t.length % 65536 < t.length := by omega
      rw [if_pos (by omega)] at hcount
      omega
    · exact fun h => absurd h.1 hlen

theorem progresses_end (ht : 44 ∉ t) (hok : (parseOne t).isSome = true) :
    Progresses (.start t behind tags) ↔ t.length < 65536 ∧ behind.head? ≠ some 44 := by
  have hne : t ≠ [] := by
    rintro rfl
    cases hok
  have hpos := List.length_pos_iff.mpr hne
  have hstep := @addManyStep_end t behind tags ht
  rw [if_pos hok] at hstep
  have hlen : (AddState.start t behind tags).len ≠ 0 := hpos.ne'
  by_cases hcomma : behind.head? = some 44
  · rw [if_pos hcomma] at hstep
    rw [progresses_iff_of_pass ⟨hlen, hstep⟩]
    simp only [hcomma, ne_eq, not_true_eq_false, and_false, iff_false, not_and]
    intro hres
    have hzero := resumes_at_end hres ht
    have hmod : t.length % 65536 ≤ t.length := Nat.mod_le _ _
    simp only [subSize] at hzero
    split_ifs at hzero with hle
    · omega
    · omega
  · rw [if_neg hcomma] at hstep
    rw [progresses_iff_of_pass ⟨hlen, hstep⟩]
    constructor
    · rintro ⟨hres, -⟩
      have hzero := resumes_at_end hres ht
      dsimp only at hzero
      exact ⟨by omega, hcomma⟩
    · rintro ⟨hshort, -⟩
      have hmod : t.length % 65536 = t.length := Nat.mod_eq_of_lt hshort
      refine ⟨⟨t, ht, hpos, ⟨behind, rfl⟩, Or.inl ⟨rfl, ?_, ?_⟩⟩, progresses_of_len ?_⟩
      · simp [AddState.start, hmod]
      · simp [hmod]
      · simp [hmod]

end

theorem steady_comma {t r behind : Bytes} (ht : 44 ∉ t) :
    Steady (t ++ 44 :: r) behind ↔
      ((parseOne (t ++ [44])).isSome = true → t.length < 65536 ∧ Steady r behind) := by
  rw [Steady, List.splitOn_append_cons_self_of_not_mem ht]
  constructor
  · intro h hok
    refine ⟨(h [] t _ rfl (by simp) (by rwa [if_neg (List.splitOn_ne_nil 44 r)])).1, ?_⟩
    intro pre u post hsplit hpre
    exact h (t :: pre) u post (by rw [hsplit]; rfl) (List.forall_mem_cons.mpr ⟨hok, hpre⟩)
  · intro h pre u post hsplit hpre hok
    cases pre with
    | nil =>
      obtain ⟨rfl, rfl⟩ := List.cons.inj hsplit
      rw [if_neg (List.splitOn_ne_nil 44 r)] at hok
      exact ⟨(h hok).1, fun hnil => absurd hnil (List.splitOn_ne_nil 44 r)⟩
    | cons u' pre =>
      obtain ⟨rfl, hmore⟩ := List.cons.inj hsplit
      have hfirst := List.forall_mem_cons.mp hpre
      exact (h hfirst.1).2 pre u post hmore hfirst.2 hok

theorem steady_end {t behind : Bytes} (ht : 44 ∉ t) :
    Steady t behind ↔
      ((parseOne t).isSome = true → t.length < 65536 ∧ behind.head? ≠ some 44) := by
  rw [Steady, List.splitOn_eq_singleton ht]
  constructor
  · intro h hok
    have hone := h [] t [] rfl (by simp) (by simpa using hok)
    exact ⟨hone.1, hone.2 rfl⟩
  · intro h pre u post hsplit _ hok
    cases pre with
    | nil =>
      obtain ⟨rfl, rfl⟩ := List.cons.inj hsplit
      rw [if_pos rfl] at hok
      exact ⟨(h hok).1, fun _ => (h hok).2⟩
    | cons u' pre => simp at hsplit

/-- Whatever text the loop is given and whatever stands behind it in memory, it
ends, each of its passes having taken one tag and its comma, exactly when the
sizes of the tags it accepts can be stored and no comma stands behind the last. -/
theorem add_many_progresses_iff (str behind : Bytes) (tags : List Tag) :
    Progresses (.start str behind tags) ↔ Steady str behind := by
  induction hn : str.length using Nat.strong_induction_on generalizing str tags with
  | _ n ih =>
  by_cases hnil : str = []
  · subst hnil
    rw [steady_end (by simp)]
    exact iff_of_true (progresses_of_len rfl) fun hok => by cases hok
  have hlen : (AddState.start str behind tags).len ≠ 0 := by
    rw [AddState.start]
    exact (List.length_pos_iff.mpr hnil).ne'
  obtain ⟨t, rest, rfl, ht, ⟨rfl, -⟩ | ⟨r, rfl, -⟩⟩ := tagTexts_split hnil
  · rw [List.append_nil] at hlen ⊢
    rw [steady_end ht]
    by_cases hok : (parseOne t).isSome = true
    · rw [progresses_end ht hok, forall_prop_of_true hok]
    · refine iff_of_true (progresses_of_refused hlen ?_) fun h => absurd h hok
      rw [addManyStep_end ht, if_neg hok]
  · rw [steady_comma ht]
    by_cases hok : (parseOne (t ++ [44])).isSome = true
    · have hr : r.length < n := by
        rw [← hn, List.length_append, List.length_cons]
        omega
      rw [progresses_comma ht hok, forall_prop_of_true hok, ih _ hr r _ rfl]
    · refine iff_of_true (progresses_of_refused hlen ?_) fun h => absurd h hok
      rw [addManyStep_comma ht, if_neg hok]

theorem isTaggableKey_replicate (n : Nat) : isTaggableKey (List.replicate (n + 1) 97) = true := by
  have hopen : b64Open.isPrefixOf (List.replicate (n + 1) 97) = false := rfl
  rw [isTaggableKey, isTaggablePart, hopen, Bool.and_false, if_neg (by simp), List.all_eq_true]
  intro c hc
  rw [List.eq_of_mem_replicate hc]
  decide

theorem addManyRun_stuck {t behind : Bytes} (ht : 44 ∉ t) (hok : (parseOne t).isSome = true)
    (hlen : t.length = 65536) (hbehind : behind.head? ≠ some 44) (tags : List Tag) (n : Nat) :
    addManyRun n (.start t behind tags) = none := by
  have hne : (AddState.start t behind tags).len ≠ 0 := by
    rw [AddState.start, hlen]
    exact Nat.succ_ne_zero 65535
  have hstep : addManyStep (.start t behind tags) = some (.start t behind tags) := by
    rw [addManyStep_end ht, if_pos hok, if_neg hbehind, addedTags, hlen, if_pos (by decide),
      AddState.start, hlen]
    rfl
  induction n with
  | zero => rw [addManyRun, if_neg hne]
  | succ n ih =>
    rw [addManyRun, if_neg hne, hstep]
    exact ih

theorem add_many_stuck :
    ¬ ∃ n, (addManyRun n (.start (List.replicate 65536 97) [93] [])).isSome = true := by
  have hletters : ∀ c : UInt8, c ≠ 97 → c ∉ List.replicate 65536 (97 : UInt8) :=
    fun c hc hm => hc (List.eq_of_mem_replicate hm)
  have hne : List.replicate 65536 (97 : UInt8) ≠ [] := List.ne_nil_of_length_eq_add_one List.length_replicate
  have hok : (parseOne (List.replicate 65536 97)).isSome = true := by
    rw [parseOne_at_end (hletters 44 (by decide)), upTo_eq_self (hletters 58 (by decide)),
      if_pos ⟨hne, isTaggableKey_replicate 65535⟩]
    rfl
  rintro ⟨n, hn⟩
  rw [addManyRun_stuck (hletters 44 (by decide)) hok List.length_replicate (by decide)] at hn
  cases hn

end Reconnoiter
