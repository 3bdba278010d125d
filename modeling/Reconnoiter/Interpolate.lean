import Reconnoiter.Decimal
import Reconnoiter.Uuid

/-! `noit_check_interpolate`: a format is expanded into a buffer, up to three times over, by operators
that each return how far the write cursor moves. -/

namespace Reconnoiter

/-- The tables, and what the random number and uuid generators give for the substitutions they are asked
in. -/
structure InterpolateEnv where
  attrs : Bytes → Option Bytes
  config : Bytes → Option Bytes
  lrand48 : Nat → Nat
  generated : Nat → Uuid

inductive InterpolateOper where
  | copy
  | ccns
  | random
  deriving DecidableEq

def interpolationOperators (name : Bytes) : Option InterpolateOper :=
  if name = [99, 111, 112, 121] then some .copy
  else if name = [99, 99, 110, 115] then some .ccns
  else if name = [114, 97, 110, 100, 111, 109] then some .random
  else none

/-- What one turn of the loop writes: a byte of the format, a text that `strlcpy` copies, or one that
`snprintf` prints. -/
inductive FormatPiece where
  | byte (c : UInt8)
  | copied (text : Bytes)
  | random (text : Bytes)
  deriving DecidableEq

namespace FormatPiece

def written (room : Nat) : FormatPiece → Bytes
  | byte c => [c]
  | copied text => text.take (room - 1)
  | random text => text.take (room - 1)

def advance (room : Nat) : FormatPiece → Nat
  | byte _ => 1
  | copied text => (text.take (room - 1)).length
  | random text => text.length

def replaces : FormatPiece → Bool
  | byte _ => false
  | _ => true

def draws : FormatPiece → Nat
  | random _ => 1
  | _ => 0

end FormatPiece

def afterColons : Bytes → Option Bytes
  | 58 :: 58 :: rest => some rest
  | _ :: rest => afterColons rest
  | [] => none

namespace InterpolateEnv

variable (env : InterpolateEnv)

def interpolateOperRandom (drawn : Nat) (key : Bytes) : Bytes :=
  if key = [105, 110, 116, 101, 103, 101, 114] then decimal (env.lrand48 drawn)
  else if key = [117, 117, 105, 100] then standardUnparseLower (env.generated drawn)
  else [114, 97, 110, 100, 111, 109, 95, 119, 104, 97, 116]

def oper (drawn : Nat) (key replacement : Bytes) : InterpolateOper → FormatPiece
  | .copy => .copied replacement
  | .ccns => .copied ((afterColons replacement).getD replacement)
  | .random => .random (env.interpolateOperRandom drawn key)

def splitKey : Bytes → Option (InterpolateOper × Bytes)
  | 58 :: rest =>
    if 58 ∈ rest then (interpolationOperators (upTo 58 rest)).map (·, after 58 rest)
      else some (.copy, 58 :: rest)
  | key => some (.copy, key)

def closer (opener : UInt8) : UInt8 := if opener = 123 then 125 else 93

def nextPiece (drawn : Nat) (c : UInt8) (fmt : Bytes) : FormatPiece × Bytes :=
  match fmt with
  | o :: rest =>
    if c = 37 ∧ (o = 123 ∨ o = 91) ∧ closer o ∈ rest then
      match splitKey (upTo (closer o) rest) with
      | none => (.byte c, fmt)
      | some (op, nkey) =>
        let replacement := ((if closer o = 125 then env.config else env.attrs) nkey).getD []
        (env.oper drawn (nkey.take 127) replacement op, after (closer o) rest)
    else (.byte c, fmt)
  | [] => (.byte c, fmt)

theorem length_nextPiece_le (drawn : Nat) (c : UInt8) (fmt : Bytes) :
    (env.nextPiece drawn c fmt).2.length ≤ fmt.length := by
  cases fmt with
  | nil => exact le_rfl
  | cons o rest =>
    simp only [nextPiece]
    split
    · split
      · exact le_rfl
      · simp only [after, List.length_drop, List.length_cons]
        omega
    · exact le_rfl

end InterpolateEnv

structure Cursor where
  fmt : Bytes
  out : Bytes
  cp : Nat
  drawn : Nat
  replacedSomething : Bool
  deriving DecidableEq

def Cursor.turn (env : InterpolateEnv) (last : Nat) (c : Cursor) (b : UInt8) (fmt : Bytes) : Cursor :=
  let (piece, rest) := env.nextPiece c.drawn b fmt
  ⟨rest, c.out ++ piece.written (last - c.cp), c.cp + piece.advance (last - c.cp), c.drawn + piece.draws,
    c.replacedSomething || piece.replaces⟩

def Cursor.expand (env : InterpolateEnv) (last : Nat) (c : Cursor) : List Cursor :=
  match _ : c.fmt with
  | [] => [c]
  | b :: fmt => if c.cp < last then c :: expand env last (c.turn env last b fmt) else [c]
termination_by c.fmt.length
decreasing_by
  rename_i hfmt _
  rw [hfmt]
  exact Nat.lt_succ_of_le (env.length_nextPiece_le c.drawn b fmt)

def interpolateRounds (env : InterpolateEnv) (last : Nat) : Nat → Nat → Bytes → List Cursor
  | 0, _, _ => []
  | iterations + 1, drawn, fmt =>
    let round := Cursor.expand env last ⟨fmt, [], 0, drawn, false⟩
    match round.getLast? with
    | some c =>
      if c.replacedSomething then round ++ interpolateRounds env last iterations c.drawn c.out else round
    | none => round

def noitCheckInterpolate (env : InterpolateEnv) (len : Nat) (fmt : Bytes) : Nat :=
  match (interpolateRounds env (len - 1) 3 0 fmt).getLast? with
  | some c => c.out.length
  | none => 0

structure StaysWithin (env : InterpolateEnv) (len : Nat) (fmt : Bytes) : Prop where
  cursor : ∀ c ∈ interpolateRounds env (len - 1) 3 0 fmt, c.cp ≤ len - 1
  length : noitCheckInterpolate env len fmt < len

def InterpolateEnv.pieces (env : InterpolateEnv) (drawn : Nat) (fmt : Bytes) : List FormatPiece :=
  match fmt with
  | [] => []
  | b :: rest =>
    (env.nextPiece drawn b rest).1 ::
      pieces env (drawn + (env.nextPiece drawn b rest).1.draws) (env.nextPiece drawn b rest).2
termination_by fmt.length
decreasing_by exact Nat.lt_succ_of_le (env.length_nextPiece_le drawn b rest)

def reached : Nat → List FormatPiece → List (Nat × FormatPiece)
  | 0, _ => []
  | _, [] => []
  | room + 1, p :: ps => (room + 1, p) :: reached (room + 1 - p.advance (room + 1)) ps

def RandomsFit (env : InterpolateEnv) (last : Nat) : Nat → Nat → Bytes → Prop
  | 0, _, _ => True
  | iterations + 1, drawn, fmt =>
    let found := reached last (env.pieces drawn fmt)
    (∀ text room, (room, FormatPiece.random text) ∈ found → text.length ≤ room) ∧
      (found.any (·.2.replaces) = true → RandomsFit env last iterations
        (drawn + (found.map (·.2.draws)).sum) (found.flatMap fun q => q.2.written q.1))

theorem FormatPiece.advance_le_iff (p : FormatPiece) {room : Nat} (hroom : 0 < room) :
    p.advance room ≤ room ↔ ∀ text, p = .random text → text.length ≤ room := by
  cases p with
  | byte c =>
    refine ⟨fun _ text h => ?_, fun _ => hroom⟩
    cases h
  | copied text => simp [advance]
  | random text => simp [advance]

theorem FormatPiece.length_written_le (p : FormatPiece) {room : Nat} (hroom : 0 < room) :
    (p.written room).length ≤ room := by
  cases p with
  | byte c => exact hroom
  | copied text => exact (List.length_take_le _ _).trans (Nat.sub_le room 1)
  | random text => exact (List.length_take_le _ _).trans (Nat.sub_le room 1)

theorem FormatPiece.length_written_le_advance (p : FormatPiece) (room : Nat) :
    (p.written room).length ≤ p.advance room := by
  cases p with
  | byte c => exact le_rfl
  | copied text => exact le_rfl
  | random text => exact List.length_take_le' _ _

namespace Cursor

variable {env : InterpolateEnv} {last : Nat}

theorem expand_stop {c : Cursor} (h : c.fmt = [] ∨ last ≤ c.cp) : c.expand env last = [c] := by
  rw [expand]
  split
  · rfl
  · rename_i b fmt hfmt
    rw [if_neg (h.resolve_left (by simp [hfmt])).not_gt]

theorem expand_turn {c : Cursor} {b : UInt8} {fmt : Bytes} (hfmt : c.fmt = b :: fmt) (h : c.cp < last) :
    c.expand env last = c :: (c.turn env last b fmt).expand env last := by
  rw [expand]
  split
  · rename_i hnil
    rw [hfmt] at hnil
    cases hnil
  · rename_i b' fmt' hfmt'
    obtain ⟨rfl, rfl⟩ := List.cons.inj (hfmt.symm.trans hfmt')
    rw [if_pos h]

def found (env : InterpolateEnv) (last : Nat) (c : Cursor) : List (Nat × FormatPiece) :=
  reached (last - c.cp) (env.pieces c.drawn c.fmt)

theorem found_stop {c : Cursor} (h : c.fmt = [] ∨ last ≤ c.cp) : c.found env last = [] := by
  rw [found]
  obtain h | h := h
  · rw [h, InterpolateEnv.pieces]
    cases last - c.cp <;> rfl
  · rw [Nat.sub_eq_zero_of_le h, reached]

theorem found_turn {c : Cursor} {b : UInt8} {fmt : Bytes} (hfmt : c.fmt = b :: fmt) (h : c.cp < last) :
    c.found env last =
      (last - c.cp, (env.nextPiece c.drawn b fmt).1) :: (c.turn env last b fmt).found env last := by
  obtain ⟨room, hroom⟩ : ∃ room, last - c.cp = room + 1 := ⟨last - c.cp - 1, by omega⟩
  rw [found, hfmt, InterpolateEnv.pieces, hroom, reached, found]
  simp only [turn, hroom, Nat.sub_add_eq]

theorem expand_induction (env : InterpolateEnv) (last : Nat) {P : Cursor → Prop}
    (stop : ∀ c : Cursor, c.fmt = [] ∨ last ≤ c.cp → P c)
    (turn : ∀ (c : Cursor) b fmt, c.fmt = b :: fmt → c.cp < last → P (c.turn env last b fmt) → P c)
    (c : Cursor) : P c := by
  induction hlen : c.fmt.length using Nat.strong_induction_on generalizing c with
  | _ n ih =>
    cases hfmt : c.fmt with
    | nil => exact stop c (.inl hfmt)
    | cons b fmt =>
      obtain hcp | hcp := lt_or_ge c.cp last
      · refine turn c b fmt hfmt hcp (ih _ ?_ _ rfl)
        rw [← hlen, hfmt]
        exact Nat.lt_succ_of_le (env.length_nextPiece_le c.drawn b fmt)
      · exact stop c (.inr hcp)

theorem expand_le_iff (env : InterpolateEnv) (last : Nat) (c : Cursor) :
    (∀ x ∈ c.expand env last, x.cp ≤ last) ↔ c.cp ≤ last ∧
      ∀ text room, (room, FormatPiece.random text) ∈ c.found env last → text.length ≤ room := by
  induction c using expand_induction env last with
  | stop c h => simp [expand_stop h, found_stop h]
  | turn c b fmt hfmt hcp ih =>
    have hstep : (c.turn env last b fmt).cp ≤ last ↔
        ∀ text, (env.nextPiece c.drawn b fmt).1 = .random text → text.length ≤ last - c.cp := by
      rw [← FormatPiece.advance_le_iff _ (Nat.sub_pos_of_lt hcp)]
      simp only [turn]
      omega
    rw [expand_turn hfmt hcp, found_turn hfmt hcp, List.forall_mem_cons, ih, hstep]
    constructor
    · rintro ⟨hle, hfirst, hrest⟩
      refine ⟨hle, fun text room hmem => ?_⟩
      obtain heq | hmem := List.mem_cons.mp hmem
      · obtain ⟨rfl, hpiece⟩ := Prod.mk.inj heq
        exact hfirst text hpiece.symm
      · exact hrest text room hmem
    · rintro ⟨hle, hall⟩
      refine ⟨hle, fun text hpiece => hall text _ ?_, fun text room hmem => hall text room (.tail _ hmem)⟩
      rw [hpiece]
      exact .head _

theorem expand_last (env : InterpolateEnv) {last : Nat} (c : Cursor) (hout : c.out.length ≤ last)
    (hcp : c.out.length ≤ c.cp) :
    ∃ l : Cursor, (c.expand env last).getLast? = some l ∧ l.out.length ≤ last ∧
      l.out = c.out ++ (c.found env last).flatMap (fun q => q.2.written q.1) ∧
      l.drawn = c.drawn + ((c.found env last).map (·.2.draws)).sum ∧
      l.replacedSomething = (c.replacedSomething || (c.found env last).any (·.2.replaces)) := by
  induction c using expand_induction env last with
  | stop c h => exact ⟨c, by simp [expand_stop h, found_stop h, hout]⟩
  | turn c b fmt hfmt hlt ih =>
    have hwritten := FormatPiece.length_written_le (env.nextPiece c.drawn b fmt).1 (Nat.sub_pos_of_lt hlt)
    have hadvance := FormatPiece.length_written_le_advance (env.nextPiece c.drawn b fmt).1 (last - c.cp)
    obtain ⟨l, hl, hlen, hlout, hdrawn, hreplaced⟩ := ih
      (by simp only [turn, List.length_append]; omega) (by simp only [turn, List.length_append]; omega)
    refine ⟨l, ?_, hlen, ?_, ?_, ?_⟩
    · rw [expand_turn hfmt hlt, List.getLast?_cons, hl]
      rfl
    · rw [hlout, found_turn hfmt hlt, List.flatMap_cons, ← List.append_assoc]
      rfl
    · rw [hdrawn, found_turn hfmt hlt, List.map_cons, List.sum_cons, ← Nat.add_assoc]
      rfl
    · rw [hreplaced, found_turn hfmt hlt, List.any_cons, ← Bool.or_assoc]
      rfl

end Cursor

theorem interpolateRounds_succ (env : InterpolateEnv) (last iterations drawn : Nat) (fmt : Bytes) :
    ∃ round : List Cursor, ∃ l : Cursor, round.getLast? = some l ∧ l.out.length ≤ last ∧
      interpolateRounds env last (iterations + 1) drawn fmt =
        (if l.replacedSomething then round ++ interpolateRounds env last iterations l.drawn l.out
          else round) ∧
      (RandomsFit env last (iterations + 1) drawn fmt ↔ (∀ c ∈ round, c.cp ≤ last) ∧
        (l.replacedSomething = true → RandomsFit env last iterations l.drawn l.out)) := by
  obtain ⟨l, hl, hlen, hout, hdrawn, hreplaced⟩ :=
    Cursor.expand_last env ⟨fmt, [], 0, drawn, false⟩ (Nat.zero_le last) (Nat.zero_le _)
  refine ⟨_, l, hl, hlen, by rw [interpolateRounds, hl], ?_⟩
  rw [Cursor.expand_le_iff, hout, hdrawn, hreplaced]
  exact and_congr_left' (and_iff_right (Nat.zero_le last)).symm

theorem interpolateRounds_le_iff (env : InterpolateEnv) (last iterations drawn : Nat) (fmt : Bytes) :
    (∀ c ∈ interpolateRounds env last iterations drawn fmt, c.cp ≤ last) ↔
      RandomsFit env last iterations drawn fmt := by
  induction iterations generalizing drawn fmt with
  | zero => simp [interpolateRounds, RandomsFit]
  | succ iterations ih =>
    obtain ⟨round, l, -, -, hrounds, hfit⟩ := interpolateRounds_succ env last iterations drawn fmt
    rw [hrounds, hfit, ← ih]
    split_ifs with hreplaced
    · rw [List.forall_mem_append]
      exact and_congr_right' ⟨fun h _ => h, fun h => h hreplaced⟩
    · exact (and_iff_left fun h => absurd h hreplaced).symm

theorem interpolateRounds_length (env : InterpolateEnv) {last iterations drawn : Nat}
    {fmt : Bytes} {c : Cursor}
    (h : (interpolateRounds env last iterations drawn fmt).getLast? = some c) : c.out.length ≤ last := by
  induction iterations generalizing drawn fmt with
  | zero => cases h
  | succ iterations ih =>
    obtain ⟨round, l, hl, hlen, hrounds, -⟩ := interpolateRounds_succ env last iterations drawn fmt
    have hround : ∀ x, round.getLast? = some x → x.out.length ≤ last := by
      intro x hx
      obtain rfl := Option.some.inj (hl.symm.trans hx)
      exact hlen
    rw [hrounds] at h
    split_ifs at h
    · rw [List.getLast?_append] at h
      obtain hnext | ⟨-, hhere⟩ := Option.or_eq_some_iff.mp h
      · exact ih hnext
      · exact hround c hhere
    · exact hround c h

/-- The interpolation stays within its buffer exactly when in each round every random text fits the room
it is written to: copied texts are cut, these are not. -/
theorem interpolate_within_iff (env : InterpolateEnv) (len : Nat) (hlen : 2 ≤ len) (fmt : Bytes) :
    StaysWithin env len fmt ↔ RandomsFit env (len - 1) 3 0 fmt := by
  rw [← interpolateRounds_le_iff]
  refine ⟨StaysWithin.cursor, fun h => ⟨h, ?_⟩⟩
  rw [noitCheckInterpolate]
  split
  · rename_i c hlast
    have hout := interpolateRounds_length env hlast
    omega
  · omega

def InterpolateEnv.zeros : InterpolateEnv := ⟨fun _ => none, fun _ => none, fun _ => 0, fun _ => Uuid.zero⟩

def uuidFormat : Bytes := [37, 123, 58, 114, 97, 110, 100, 111, 109, 58, 117, 117, 105, 100, 125]

def copyFormat : Bytes := [37, 91, 97, 93]

/-- An attribute a whose value is a reference to the attribute b. -/
def referringEnv : InterpolateEnv :=
  { InterpolateEnv.zeros with attrs := fun name => if name = [97] then some [37, 91, 98, 93] else some [120] }

/-- The first round copies the reference, and the second what it refers to. -/
theorem interpolate_within_plain : StaysWithin referringEnv 6 copyFormat := by
  refine (interpolate_within_iff _ 6 (by decide) _).mpr ?_
  simp [RandomsFit, InterpolateEnv.pieces, reached, InterpolateEnv.nextPiece, InterpolateEnv.splitKey,
    InterpolateEnv.closer, InterpolateEnv.oper, referringEnv, copyFormat,
      FormatPiece.advance, FormatPiece.replaces,
    FormatPiece.written, upTo, after]

theorem interpolate_uuid_overruns : 2 ≤ 10 ∧ (∃ c ∈ interpolateRounds .zeros 9 3 0 uuidFormat, c.cp = 36) ∧
    ¬ StaysWithin .zeros 10 uuidFormat := by
  have hround : Cursor.expand .zeros 9 ⟨uuidFormat, [], 0, 0, false⟩ =
      [⟨uuidFormat, [], 0, 0, false⟩, ⟨[], [48, 48, 48, 48, 48, 48, 48, 48], 36, 1, true⟩] := by
    rw [Cursor.expand_turn rfl (by decide), Cursor.expand_stop (.inl (by decide))]
    decide
  have hmem : (⟨[], [48, 48, 48, 48, 48, 48, 48, 48], 36, 1, true⟩ : Cursor) ∈
      interpolateRounds .zeros 9 3 0 uuidFormat := by
    rw [interpolateRounds, hround]
    simp
  exact ⟨by decide, ⟨_, hmem, rfl⟩, fun h => absurd (h.cursor _ hmem) (by decide)⟩

end Reconnoiter
