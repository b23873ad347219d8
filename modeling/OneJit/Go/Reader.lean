import OneJit.Go.Token
import OneJit.Lib.Utf8
import Mathlib.Logic.Function.Iterate

/-!
# The input of the scanner

`utf8Reader` reads its source into a buffer, and takes one rune after another from it. The source
delivers its bytes in pieces.
-/

namespace OneJit.Go

/-- What a source delivers at once: at least one byte. -/
abbrev Piece := { bs : Bytes // bs ≠ [] }

/-- The bytes of pieces. -/
def flatten (src : List Piece) : Bytes := src.flatMap (·.1)

/-- `Read` into `max` bytes: the next piece, or what fits of it, and at the end of the pieces
nothing. -/
def read : List Piece → Nat → Bytes × List Piece
  | [], _ => ([], [])
  | piece :: src, max =>
    if h : piece.1.length ≤ max then (piece.1, src)
    else (piece.1.take max, ⟨piece.1.drop max, by simpa using h⟩ :: src)

theorem read_append (src : List Piece) (max : Nat) :
    (read src max).1 ++ flatten (read src max).2 = flatten src := by
  cases src with
  | nil => rfl
  | cons piece src =>
    rw [read]
    split
    · rfl
    · change piece.1.take max ++ (piece.1.drop max ++ flatten src) = piece.1 ++ flatten src
      rw [← List.append_assoc, List.take_append_drop]

/-- The capacity of the buffer. -/
def bufSize : Nat := 65536

/-- The part of `utf8Reader` that holds the input. -/
structure Input where
  buf : Bytes
  start : Nat
  src : List Piece
  le : start ≤ buf.length

namespace Input

theorem start_le : 0 ≤ ([] : Bytes).length := Nat.le_refl 0

/-- A buffer without bytes yet. -/
def init (src : List Piece) : Input := ⟨[], 0, src, start_le⟩

/-- The bytes of the buffer that are not yet taken. -/
def available (i : Input) : Bytes := i.buf.drop i.start

/-- All bytes that are not yet taken. -/
def remaining (i : Input) : Bytes := i.available ++ flatten i.src

/-- `shift`. -/
def shift (i : Input) : Input :=
  { i with buf := i.available, start := 0, le := Nat.zero_le _ }

/-- `refill`, after the shift. -/
def readMore (i : Input) : Input :=
  if bufSize ≤ i.buf.length then i
  else
    { i with
      buf := i.buf ++ (read i.src (bufSize - i.buf.length)).1
      src := (read i.src (bufSize - i.buf.length)).2
      le := by
        rw [List.length_append]
        exact Nat.le_add_right_of_le i.le }

/-- `refill`. -/
def refill (i : Input) : Input := (if bufSize / 2 ≤ i.start then i.shift else i).readMore

/-- The buffer is filled once when it does not begin with a full rune. -/
def fill (i : Input) : Input := if Utf8.fullRune i.available then i else i.refill

/-- `start += n`. -/
def skip (i : Input) (n : Nat) (h : n ≤ i.available.length) : Input :=
  { i with
    start := i.start + n
    le := by
      have hle := i.le
      rw [available, List.length_drop] at h
      omega }

@[simp] theorem available_skip (i : Input) (n : Nat) (h : n ≤ i.available.length) :
    (i.skip n h).available = i.available.drop n := by
  rw [available, available, skip, List.drop_drop]

@[simp] theorem available_shift (i : Input) : i.shift.available = i.available := rfl

theorem remaining_readMore (i : Input) : i.readMore.remaining = i.remaining := by
  unfold readMore
  split
  · rfl
  · change (i.buf ++ _).drop i.start ++ _ = i.buf.drop i.start ++ _
    rw [List.drop_append_of_le_length i.le, List.append_assoc, read_append]

/-- Reading loses no bytes. -/
theorem remaining_refill (i : Input) : i.refill.remaining = i.remaining := by
  rw [refill, remaining_readMore]
  split <;> rfl

theorem remaining_fill (i : Input) : i.fill.remaining = i.remaining := by
  rw [fill]
  split
  · rfl
  · exact i.remaining_refill

theorem remaining_skip (i : Input) (n : Nat) (h : n ≤ i.available.length) :
    (i.skip n h).remaining = i.remaining.drop n := by
  rw [remaining, available_skip, remaining, List.drop_append_of_le_length h]
  rfl

/-- What `next` does to the input in one round: the buffer is filled, and the rune at its head, or
the byte at which no rune starts, is taken. -/
def step (i : Input) : Input :=
  i.fill.skip (Utf8.decodeRune i.fill.available).2 (Utf8.decodeRune_le _)

/-- The buffer holds the whole rune at the head of the bytes that remain, after it is filled. -/
def Completes (i : Input) : Prop := (Utf8.decodeRune i.remaining).2 ≤ i.fill.available.length

/-- Whenever a rune is taken, the source has delivered the whole of it. -/
def Prompt (i : Input) : Prop := ∀ n, (step^[n] i).Completes

/-- Both inputs deliver the same bytes, without delay. -/
structure Alike (i j : Input) : Prop where
  remaining : i.remaining = j.remaining
  left : i.Prompt
  right : j.Prompt

/-- The rune at the head is then decoded from the buffer alone. -/
theorem Completes.decodeRune {i : Input} (h : i.Completes) :
    Utf8.decodeRune i.fill.available = Utf8.decodeRune i.remaining := by
  rw [Completes, ← i.remaining_fill, Input.remaining] at h
  rw [← i.remaining_fill, Input.remaining]
  by_cases hne : i.fill.available = []
  · rw [hne] at h ⊢
    by_cases hsrc : flatten i.fill.src = []
    · rw [hsrc]
      rfl
    · exact absurd h (Nat.not_le.mpr (Utf8.decodeRune_pos hsrc))
  · exact (Utf8.decodeRune_append hne _ h).symm

theorem Prompt.completes {i : Input} (h : i.Prompt) : i.Completes := h 0

theorem Prompt.step {i : Input} (h : i.Prompt) : i.step.Prompt := fun n => h (n + 1)

theorem Prompt.remaining_step {i : Input} (h : i.Prompt) :
    i.step.remaining = i.remaining.drop (Utf8.decodeRune i.remaining).2 := by
  rw [Input.step, remaining_skip, remaining_fill, h.completes.decodeRune]

theorem Alike.step {i j : Input} (h : Alike i j) : Alike i.step j.step := by
  refine ⟨?_, h.left.step, h.right.step⟩
  rw [h.left.remaining_step, h.right.remaining_step, h.remaining]

theorem Alike.decodeRune {i j : Input} (h : Alike i j) :
    Utf8.decodeRune i.fill.available = Utf8.decodeRune j.fill.available := by
  rw [h.left.completes.decodeRune, h.right.completes.decodeRune, h.remaining]

end Input

end OneJit.Go
