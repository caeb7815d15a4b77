import Ureth.Foundation.Outcome
import Ureth.Foundation.Bytes

/-!
# Reading a slice from a moving offset

A cursor is a slice and an offset into it. A reader that succeeds moves the
offset over the bytes it read and changes nothing else, and an exact reader
succeeds precisely where the encoding of its value stands. Exact readers compose
as their encodings concatenate.
-/

namespace Ureth.Foundation

/-- An owned byte string: an allocation has fewer than `2 ^ 63` bytes. -/
abbrev ByteVec := { b : Bytes // b.length < 2 ^ 63 }

def ByteVec.empty : ByteVec := ⟨[], by decide⟩

/-- A string starts with the encoding of at most one value. -/
def PrefixFree {α : Type} (encode : α → Bytes) : Prop :=
  ∀ ⦃a b : α⦄ ⦃r s : Bytes⦄, encode a ++ r = encode b ++ s → a = b ∧ r = s

theorem PrefixFree.append_iff {α : Type} {encode : α → Bytes} (h : PrefixFree encode) {a b : α} {r s : Bytes} :
    encode a ++ r = encode b ++ s ↔ a = b ∧ r = s := by
  constructor
  · exact fun heq => h heq
  · rintro ⟨rfl, rfl⟩
    rfl

/-- A slice with an offset inside it. -/
structure Cursor where
  input : Bytes
  offset : Nat
  inside : offset ≤ input.length
  slice : input.length < 2 ^ 63

namespace Cursor

/-- The bytes not read yet. -/
def rest (c : Cursor) : Bytes := c.input.drop c.offset

def start (input : Bytes) (slice : input.length < 2 ^ 63) : Cursor := ⟨input, 0, Nat.zero_le _, slice⟩

/-- At the first byte of an owned string. -/
def ofVec (v : ByteVec) : Cursor := start v.val v.property

@[simp] theorem rest_start (input : Bytes) (slice : input.length < 2 ^ 63) :
    (start input slice).rest = input := rfl

@[ext] theorem ext {c d : Cursor} (hinput : c.input = d.input) (hoffset : c.offset = d.offset) : c = d := by
  cases c
  cases d
  simp_all

/-- `d` is `c` moved over the bytes `b`. -/
structure Advance (c : Cursor) (b : Bytes) (d : Cursor) : Prop where
  input : d.input = c.input
  offset : d.offset = c.offset + b.length
  rest : c.rest = b ++ d.rest

/-- The cursor after `n` bytes that are there. -/
def skip (c : Cursor) (n : Nat) (h : c.offset + n ≤ c.input.length) : Cursor :=
  ⟨c.input, c.offset + n, h, c.slice⟩

theorem length_rest (c : Cursor) : c.rest.length = c.input.length - c.offset := by
  simp [rest]

theorem advance_skip (c : Cursor) (n : Nat) (h : c.offset + n ≤ c.input.length) :
    c.Advance (c.rest.take n) (c.skip n h) := by
  have hlen : (c.rest.take n).length = n := by
    rw [List.length_take, length_rest]
    omega
  refine ⟨rfl, by rw [hlen]; rfl, ?_⟩
  have hdrop : (c.skip n h).rest = c.rest.drop n := by
    simp [rest, skip, List.drop_drop]
  rw [hdrop, List.take_append_drop]

theorem Advance.eq {c d e : Cursor} {b : Bytes} (hd : c.Advance b d) (he : c.Advance b e) : d = e :=
  ext (hd.input.trans he.input.symm) (hd.offset.trans he.offset.symm)

@[simp] theorem advance_nil {c d : Cursor} : c.Advance [] d ↔ d = c := by
  constructor
  · intro h
    exact ext h.input h.offset
  · rintro rfl
    exact ⟨rfl, rfl, rfl⟩

/-- Moving over a concatenation is moving over its parts. -/
theorem advance_append {c e : Cursor} {a b : Bytes} :
    c.Advance (a ++ b) e ↔ ∃ d, c.Advance a d ∧ d.Advance b e := by
  constructor
  · intro h
    have hlen : a.length ≤ c.rest.length := by
      rw [h.rest]
      simp
    rw [length_rest] at hlen
    have hinside := c.inside
    have hskip := c.advance_skip a.length (by omega)
    have htake : c.rest.take a.length = a := by
      rw [h.rest, List.append_assoc, List.take_left]
    rw [htake] at hskip
    refine ⟨_, hskip, h.input.trans hskip.input.symm, ?_, ?_⟩
    · rw [h.offset, hskip.offset, List.length_append]
      omega
    · have hrest := hskip.rest
      rw [h.rest, List.append_assoc] at hrest
      exact (List.append_cancel_left hrest).symm
  · rintro ⟨d, had, hbe⟩
    refine ⟨hbe.input.trans had.input, ?_, ?_⟩
    · rw [hbe.offset, had.offset, List.length_append]
      omega
    · rw [had.rest, hbe.rest, List.append_assoc]

/-- From the start to the end of a slice: the bytes read are the whole slice. -/
theorem advance_whole {input b : Bytes} {slice : input.length < 2 ^ 63} :
    (∃ d, (start input slice).Advance b d ∧ d.offset = input.length) ↔ input = b := by
  constructor
  · rintro ⟨d, h, hend⟩
    have hrest := h.rest
    have hinput : d.input = input := h.input
    rw [rest_start, rest, hinput, hend, List.drop_length, List.append_nil] at hrest
    exact hrest
  · rintro rfl
    refine ⟨⟨input, input.length, le_rfl, slice⟩, ⟨rfl, by simp [start], ?_⟩, rfl⟩
    simp [rest, start]

/-! ## Reading -/

section Read

variable {ε α : Type}

/-- The next `length` bytes: `overflow` when the end is not a 64-bit number, `eof` when
it is behind the slice. -/
def take (overflow eof : ε) (length : Nat) : Run Cursor ε ByteVec := fun c =>
  if 2 ^ 64 ≤ c.offset + length then (Res.fail overflow, c)
  else if h : c.offset + length ≤ c.input.length then
    (.ok ⟨c.rest.take length, lt_of_le_of_lt (c.rest.length_take_le' length)
      (lt_of_le_of_lt (by rw [c.length_rest]; omega) c.slice)⟩, c.skip length h)
  else (Res.fail eof, c)

/-- The end of the slice. -/
def finish (trailing : ε) : Run Cursor ε Unit := fun c =>
  (Res.refuse (c.offset ≠ c.input.length) trailing, c)

/-- One value and nothing after it. -/
def whole (trailing : ε) (read : Run Cursor ε α) : Run Cursor ε α := do
  let value ← read
  finish trailing
  return value

/-- `read` once per round, `count` rounds. -/
def repeatRead (read : Run Cursor ε α) : Nat → Run Cursor ε (List α)
  | 0 => pure []
  | count + 1 => do
    let value ← read
    return value :: (← repeatRead read count)

theorem take_eq_ok {overflow eof : ε} {n : Nat} {c d : Cursor} {s : ByteVec} :
    take overflow eof n c = (.ok s, d) ↔ s.val.length = n ∧ c.Advance s.val d := by
  have hslice := c.slice
  have hinside := c.inside
  unfold take
  split
  next hbig =>
    simp only [Res.fail_ne_ok, Prod.mk.injEq, false_and, false_iff, not_and]
    rintro rfl h
    have hfit := congrArg List.length h.rest
    rw [List.length_append, length_rest] at hfit
    omega
  next hsmall =>
    split
    next hfit =>
      have hskip := c.advance_skip n hfit
      have hlen : (c.rest.take n).length = n := by
        rw [List.length_take, length_rest]
        omega
      simp only [Prod.mk.injEq, Except.ok.injEq]
      constructor
      · rintro ⟨rfl, rfl⟩
        exact ⟨hlen, hskip⟩
      · rintro ⟨rfl, h⟩
        have hs : c.rest.take s.val.length = s.val := by
          rw [h.rest, List.take_left]
        rw [hs] at hskip
        exact ⟨Subtype.ext hs, hskip.eq h⟩
    next hfit =>
      simp only [Res.fail_ne_ok, Prod.mk.injEq, false_and, false_iff, not_and]
      rintro rfl h
      have hlen := congrArg List.length h.rest
      rw [List.length_append, length_rest] at hlen
      omega

theorem finish_eq_ok {trailing : ε} {c d : Cursor} {u : Unit} :
    finish trailing c = (.ok u, d) ↔ c.offset = c.input.length ∧ d = c := by
  rw [finish, Prod.mk.injEq, Res.refuse_eq_ok, not_not, eq_comm (a := c)]

/-- Exact readers of a whole slice. -/
theorem whole_eq_ok {trailing : ε} {read : Run Cursor ε α} {P : α → Prop} {encode : α → Bytes}
    (hread : ∀ c d a, read c = (.ok a, d) ↔ P a ∧ c.Advance (encode a) d) {input : Bytes}
    {slice : input.length < 2 ^ 63} {a : α} :
    (whole trailing read (start input slice)).1 = .ok a ↔ P a ∧ input = encode a := by
  have hrun : (whole trailing read (start input slice)).1 = .ok a ↔
      ∃ d, whole trailing read (start input slice) = (.ok a, d) :=
    ⟨fun h => ⟨_, Prod.ext h rfl⟩, fun ⟨d, h⟩ => by rw [h]⟩
  rw [hrun, ← @advance_whole input (encode a) slice]
  simp only [whole, Run.bind_eq_ok, hread, finish_eq_ok, Run.pure_apply, Prod.mk.injEq,
    Except.ok.injEq]
  constructor
  · rintro ⟨_, v, t, ⟨hP, hadv⟩, _, _, ⟨hend, rfl⟩, rfl, rfl⟩
    rw [hadv.input] at hend
    exact ⟨hP, _, hadv, hend⟩
  · rintro ⟨hP, d, hadv, hend⟩
    exact ⟨d, a, d, ⟨hP, hadv⟩, (), d, ⟨by rw [hadv.input]; exact hend, rfl⟩, rfl, rfl⟩

theorem repeatRead_eq_ok {read : Run Cursor ε α} {P : α → Prop} {encode : α → Bytes}
    (hread : ∀ c d a, read c = (.ok a, d) ↔ P a ∧ c.Advance (encode a) d) {count : Nat}
    {c d : Cursor} {as : List α} :
    repeatRead read count c = (.ok as, d) ↔
      as.length = count ∧ (∀ a ∈ as, P a) ∧ c.Advance (as.flatMap encode) d := by
  induction count generalizing c d as with
  | zero =>
    simp only [repeatRead, Run.pure_apply, Prod.mk.injEq, Except.ok.injEq, List.length_eq_zero_iff]
    constructor
    · rintro ⟨rfl, rfl⟩
      simp
    · rintro ⟨rfl, -, h⟩
      exact ⟨rfl, (advance_nil.mp h).symm⟩
  | succ count ih =>
    simp only [repeatRead, Run.bind_eq_ok, hread, ih, Run.pure_apply, Prod.mk.injEq, Except.ok.injEq]
    constructor
    · rintro ⟨a, t, ⟨ha, hadv⟩, rest, _, ⟨hlen, hall, hrest⟩, rfl, rfl⟩
      refine ⟨by simp [hlen], by simpa using ⟨ha, hall⟩, ?_⟩
      rw [List.flatMap_cons]
      exact advance_append.mpr ⟨t, hadv, hrest⟩
    · rintro ⟨hlen, hall, hadv⟩
      obtain ⟨a, rest, rfl⟩ := List.exists_cons_of_length_eq_add_one hlen
      rw [List.flatMap_cons] at hadv
      obtain ⟨t, ha, hrest⟩ := advance_append.mp hadv
      rw [List.forall_mem_cons] at hall
      exact ⟨a, t, ⟨hall.1, ha⟩, rest, d, ⟨by simpa using hlen, hall.2, hrest⟩, rfl, rfl⟩

end Read

/-- The next byte of a cursor, if there is one. -/
theorem advance_singleton {c d : Cursor} {x : UInt8} (h : c.Advance [x] d) : c.rest.head? = some x := by
  rw [h.rest]
  rfl

end Cursor

end Ureth.Foundation
