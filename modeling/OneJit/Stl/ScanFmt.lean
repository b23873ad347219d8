import Mathlib.Data.BitVec
import Mathlib.Algebra.Order.BigOperators.Group.List
import Mathlib.Algebra.Order.Group.Nat
import Mathlib.Tactic.SplitIfs

/-!
# Printing and scanning of integers

`io::Fmt` prints 64-bit integers in decimal, and `io::Scan` reads them from a reader that is asked
for one byte at a time, with one byte of look-ahead.
-/

namespace OneJit.Stl

/-! ## Printing -/

/-- `Fmt` with a writer that accepts all bytes: what was written. -/
structure Fmt where
  out : List (BitVec 8)
  err : Int
  deriving DecidableEq, Repr

namespace Fmt

def init : Fmt := ⟨[], 0⟩

/-- `write`. -/
def write (f : Fmt) (chars : List (BitVec 8)) : Fmt :=
  if chars.length ≠ 0 ∧ f.err = 0 then { f with out := f.out ++ chars } else f

/-- The loop of `operator<<(uint64_t)`, which fills a buffer from its end: `i` bytes are left. -/
def digits : Nat → BitVec 64 → List (BitVec 8) → List (BitVec 8)
  | 0, _, buf => buf
  | i + 1, val, buf =>
    let buf := (48#8 + (val % 10).setWidth 8) :: buf
    if i ≠ 0 ∧ val / 10 ≠ 0 then digits i (val / 10) buf else buf

/-- `operator<<(uint64_t)`. -/
def putUInt64 (f : Fmt) (val : BitVec 64) : Fmt :=
  if f.err ≠ 0 then f else f.write (digits 24 val [])

/-- `operator<<(int64_t)`. The negation wraps. -/
def putInt64 (f : Fmt) (val : BitVec 64) : Fmt :=
  if val.slt 0 then (f.write [45#8]).putUInt64 (-val) else f.putUInt64 val

end Fmt

/-- A number, with its type. -/
inductive Number
  | int64 (val : BitVec 64)
  | uint64 (val : BitVec 64)
  deriving DecidableEq, Repr

/-- The type of a number. -/
inductive NumberType
  | int64
  | uint64
  deriving DecidableEq, Repr

def Number.type : Number → NumberType
  | int64 _ => .int64
  | uint64 _ => .uint64

/-- `operator<<`. -/
def Fmt.put (f : Fmt) : Number → Fmt
  | .int64 val => f.putInt64 val
  | .uint64 val => f.putUInt64 val

/-- Numbers one after another, each with what is written before it. -/
def Fmt.putAll (f : Fmt) (items : List (List (BitVec 8) × Number)) : Fmt :=
  items.foldl (fun f item => (f.write item.1).put item.2) f

/-! ## Scanning -/

/-- A reader: `read` of one byte gives the number of bytes that were read, and the byte. -/
structure Reader (ρ : Type) where
  read : ρ → Int × BitVec 8 × ρ

/-- `Scan`. -/
structure Scan (ρ : Type) where
  reader : ρ
  next : Int
  err : Int

section Scan

variable {ρ : Type} (rd : Reader ρ)

namespace Scan

/-- A `Scan` of a reader. -/
def init (r : ρ) : Scan ρ := ⟨r, -1, 0⟩

/-- `peek`. -/
def peek (s : Scan ρ) : Int × Scan ρ :=
  if 0 ≤ s.next then (s.next, s)
  else if s.err < 0 then (s.err, s)
  else
    let (err, ch, r) := rd.read s.reader
    if err < 0 then (err, { s with reader := r, err := err })
    else if err = 0 then (-2, { s with reader := r, err := -2 })
    else (ch.toNat, { s with reader := r, next := ch.toNat })

/-- `next`. -/
def advance (s : Scan ρ) : Int × Scan ρ :=
  if 0 ≤ s.next then (s.next, { s with next := -1 })
  else if s.err < 0 then (s.err, s)
  else
    let (err, ch, r) := rd.read s.reader
    if err < 0 then (err, { s with reader := r, err := err })
    else if err = 0 then (-2, { s with reader := r, err := -2 })
    else (ch.toNat, { s with reader := r })

/-- `skip_whitespace`. -/
def skipWhitespace : Nat → Scan ρ → Option (Scan ρ)
  | 0, _ => none
  | fuel + 1, s =>
    let (err, s) := s.peek rd
    if 0 ≤ err ∧ err ≤ 32 then skipWhitespace fuel (s.advance rd).2 else some s

/-- The loop of `operator>>(uint64_t)`. -/
def digitsLoop : Nat → BitVec 64 → Scan ρ → Option (BitVec 64 × Scan ρ)
  | 0, _, _ => none
  | fuel + 1, val, s =>
    let (err, s) := s.peek rd
    if 48 ≤ err ∧ err ≤ 57 then
      digitsLoop fuel (val * 10 + BitVec.ofInt 64 (err - 48)) (s.advance rd).2
    else some (val, s)

/-- `operator>>(uint64_t)`. -/
def getUInt64 (fuel : Nat) (s : Scan ρ) : Option (BitVec 64 × Scan ρ) :=
  (s.skipWhitespace rd fuel).bind fun s => s.digitsLoop rd fuel 0

/-- `operator>>(int64_t)`. -/
def getInt64 (fuel : Nat) (s : Scan ρ) : Option (BitVec 64 × Scan ρ) :=
  (s.skipWhitespace rd fuel).bind fun s =>
    let (err, s) := s.peek rd
    let negative := err = 45
    let s := if negative then (s.advance rd).2 else s
    (s.getUInt64 rd fuel).map fun (uval, s) => (if negative then -uval else uval, s)

/-- `operator>>`. -/
def get (fuel : Nat) (s : Scan ρ) : NumberType → Option (Number × Scan ρ)
  | .int64 => (s.getInt64 rd fuel).map fun (val, s) => (.int64 val, s)
  | .uint64 => (s.getUInt64 rd fuel).map fun (val, s) => (.uint64 val, s)

end Scan

/-- The reader returns these bytes in order, and then no more. -/
inductive Serves : ρ → List (BitVec 8) → Prop
  | nil {r : ρ} (h : (rd.read r).1 ≤ 0) : Serves r []
  | cons {r r' : ρ} {n : Int} {b : BitVec 8} {bs : List (BitVec 8)} (hn : 0 < n)
    (hread : rd.read r = (n, b, r')) (h : Serves r' bs) : Serves r (b :: bs)

/-- The bytes that remain, and of which the first is not read yet. -/
structure Untouched (s : Scan ρ) (bs : List (BitVec 8)) : Prop where
  next : s.next = -1
  err : s.err = 0
  serves : Serves rd s.reader bs

/-- The bytes that remain, of which no more than the first has been taken from the reader. -/
inductive Ahead : Scan ρ → List (BitVec 8) → Prop
  | nil {s : Scan ρ} (hnext : s.next = -1) (herr : s.err < 0) : Ahead s []
  | cons {s : Scan ρ} {b : BitVec 8} {bs : List (BitVec 8)} (hnext : s.next = b.toNat)
    (herr : s.err = 0) (h : Serves rd s.reader bs) : Ahead s (b :: bs)

/-- The bytes that remain. -/
def Remains (s : Scan ρ) (bs : List (BitVec 8)) : Prop := Untouched rd s bs ∨ Ahead rd s bs

/-- Numbers that are read back one after another. After each one no byte behind the first that
follows it has been taken from the reader. -/
def ReadBack (fuel : Nat) (rest : List (BitVec 8)) :
    List (List (BitVec 8) × Number) → Scan ρ → Prop
  | [], _ => True
  | (_, v) :: items, s => ∃ s', s.get rd fuel v.type = some (v, s') ∧
      Ahead rd s' (((Fmt.init.putAll items).out) ++ rest) ∧ ReadBack fuel rest items s'

/-! ## One byte -/

section Steps

variable {rd} {s : Scan ρ} {b : BitVec 8} {bs : List (BitVec 8)}

/-- `peek` takes the first byte from the reader, and no other one. -/
theorem peek_cons (h : Remains rd s (b :: bs)) :
    ∃ s', s.peek rd = ((b.toNat : Int), s') ∧ Ahead rd s' (b :: bs) := by
  rcases h with ⟨hnext, herr, hserves⟩ | hahead
  · cases hserves with
    | @cons _ r' n _ _ hn hread hserves =>
      refine ⟨{ s with reader := r', next := b.toNat }, ?_, .cons rfl herr hserves⟩
      rw [Scan.peek, if_neg (by omega), if_neg (by omega), hread]
      dsimp only
      rw [if_neg (by omega), if_neg (by omega)]
  · cases hahead with
    | cons hnext herr hserves =>
      refine ⟨s, ?_, .cons hnext herr hserves⟩
      rw [Scan.peek, if_pos (by omega), hnext]

theorem peek_nil (h : Remains rd s []) : ∃ err s', s.peek rd = (err, s') ∧ err < 0 ∧ Ahead rd s' [] := by
  rcases h with ⟨hnext, herr, hserves⟩ | hahead
  · cases hserves with
    | nil hread =>
      rw [Scan.peek, if_neg (by omega), if_neg (by omega)]
      rcases hres : rd.read s.reader with ⟨n, ch, r⟩
      rw [hres] at hread
      dsimp only at hread ⊢
      split_ifs with hneg hzero
      · exact ⟨n, _, rfl, hneg, .nil hnext hneg⟩
      · have hneg : (-2 : Int) < 0 := by decide
        exact ⟨-2, _, rfl, hneg, .nil hnext hneg⟩
      · omega
  · cases hahead with
    | nil hnext herr =>
      refine ⟨s.err, s, ?_, herr, .nil hnext herr⟩
      rw [Scan.peek, if_neg (by omega), if_pos herr]

/-- `next` after `peek`. -/
theorem advance_cons (h : Ahead rd s (b :: bs)) : Untouched rd (s.advance rd).2 bs := by
  cases h with
  | cons hnext herr hserves =>
    rw [Scan.advance, if_pos (by omega)]
    exact ⟨rfl, herr, hserves⟩

end Steps

/-! ## Loops -/

section Loops

variable {rd} {s : Scan ρ} {bs ws rest : List (BitVec 8)} {fuel : Nat}

/-- The first byte, if there is one, is no white space. -/
def NoSpace (bs : List (BitVec 8)) : Prop := ∀ b, bs.head? = some b → 32 < b.toNat

/-- The first byte, if there is one, is no digit. -/
def NoDigit (bs : List (BitVec 8)) : Prop :=
  ∀ b, bs.head? = some b → b.toNat < 48 ∨ 57 < b.toNat

def IsDigit (b : BitVec 8) : Prop := 48 ≤ b.toNat ∧ b.toNat ≤ 57

/-- White space is skipped. -/
theorem skipWhitespace_spec (hws : ∀ b ∈ ws, b.toNat ≤ 32) (hbs : NoSpace bs)
    (h : Remains rd s (ws ++ bs)) (hfuel : ws.length < fuel) :
    ∃ s', s.skipWhitespace rd fuel = some s' ∧ Ahead rd s' bs := by
  induction ws generalizing s fuel with
  | nil =>
    obtain ⟨fuel, rfl⟩ := Nat.exists_eq_add_of_le' (show 1 ≤ fuel by simp at hfuel; omega)
    rw [Scan.skipWhitespace]
    cases bs with
    | nil =>
      obtain ⟨err, s', hpeek, herr, hahead⟩ := peek_nil h
      refine ⟨s', ?_, hahead⟩
      rw [hpeek]
      exact if_neg (by omega)
    | cons b bs =>
      obtain ⟨s', hpeek, hahead⟩ := peek_cons h
      have hb := hbs b rfl
      refine ⟨s', ?_, hahead⟩
      rw [hpeek]
      exact if_neg (by omega)
  | cons b ws ih =>
    obtain ⟨fuel, rfl⟩ := Nat.exists_eq_add_of_le' (show 1 ≤ fuel by omega)
    obtain ⟨s', hpeek, hahead⟩ := peek_cons h
    have hb := hws b (by simp)
    have htail : ∀ x ∈ ws, x.toNat ≤ 32 := fun x hx => hws x (by simp [hx])
    have hlen : ws.length < fuel := by
      simp only [List.length_cons] at hfuel
      omega
    obtain ⟨s'', hskip, hahead'⟩ := ih htail (.inl (advance_cons hahead)) hlen
    refine ⟨s'', ?_, hahead'⟩
    rw [Scan.skipWhitespace, hpeek]
    exact (if_pos (by omega)).trans hskip

/-- The number that digits are, after the digits of another number. -/
def readDigits (val : BitVec 64) (ds : List (BitVec 8)) : BitVec 64 :=
  ds.foldl (fun val d => val * 10 + BitVec.ofInt 64 ((d.toNat : Int) - 48)) val

/-- All digits are read. -/
theorem digitsLoop_spec {val : BitVec 64} (hds : ∀ d ∈ ws, IsDigit d) (hbs : NoDigit bs)
    (h : Remains rd s (ws ++ bs)) (hfuel : ws.length < fuel) :
    ∃ s', s.digitsLoop rd fuel val = some (readDigits val ws, s') ∧ Ahead rd s' bs := by
  induction ws generalizing s fuel val with
  | nil =>
    obtain ⟨fuel, rfl⟩ := Nat.exists_eq_add_of_le' (show 1 ≤ fuel by simp at hfuel; omega)
    rw [Scan.digitsLoop]
    cases bs with
    | nil =>
      obtain ⟨err, s', hpeek, herr, hahead⟩ := peek_nil h
      refine ⟨s', ?_, hahead⟩
      rw [hpeek]
      exact if_neg (by omega)
    | cons b bs =>
      obtain ⟨s', hpeek, hahead⟩ := peek_cons h
      have hb := hbs b rfl
      refine ⟨s', ?_, hahead⟩
      rw [hpeek]
      exact if_neg (by omega)
  | cons d ds ih =>
    obtain ⟨fuel, rfl⟩ := Nat.exists_eq_add_of_le' (show 1 ≤ fuel by omega)
    obtain ⟨s', hpeek, hahead⟩ := peek_cons h
    obtain ⟨hlo, hhi⟩ := hds d (by simp)
    have htail : ∀ x ∈ ds, IsDigit x := fun x hx => hds x (by simp [hx])
    have hlen : ds.length < fuel := by
      simp only [List.length_cons] at hfuel
      omega
    obtain ⟨s'', hloop, hahead'⟩ := @ih (s'.advance rd).2 fuel
      (val * 10 + BitVec.ofInt 64 ((d.toNat : Int) - 48)) htail (.inl (advance_cons hahead)) hlen
    refine ⟨s'', ?_, hahead'⟩
    rw [Scan.digitsLoop, hpeek]
    exact (if_pos (by omega)).trans hloop

end Loops

/-! ## Digits -/

/-- The digits of a number are read back as the number. -/
theorem readDigits_digits {i : Nat} {val : BitVec 64} (buf : List (BitVec 8))
    (h : val.toNat < 10 ^ i) (hi : 0 < i) :
    readDigits 0 (Fmt.digits i val buf) = readDigits val buf := by
  induction i generalizing val buf with
  | zero => omega
  | succ i ih =>
    have hdigit : ((48#8 + (val % 10).setWidth 8).toNat : Int) - 48 = (val.toNat % 10 : Nat) := by
      rw [BitVec.toNat_add, BitVec.toNat_setWidth, BitVec.toNat_umod]
      simp
      omega
    have hstep : ∀ x : BitVec 64, readDigits x ((48#8 + (val % 10).setWidth 8) :: buf) =
        readDigits (x * 10 + val % 10) buf := by
      intro x
      rw [readDigits, List.foldl_cons, hdigit, BitVec.ofInt_natCast]
      congr 2
      apply BitVec.eq_of_toNat_eq
      simp
      omega
    rw [Fmt.digits]
    split_ifs with hmore
    · have hdiv : (val / 10).toNat = val.toNat / 10 := by simp
      have hlt : (val / 10).toNat < 10 ^ i := by
        rw [hdiv]
        rw [pow_succ] at h
        omega
      rw [ih _ hlt (by omega), hstep]
      congr 1
      apply BitVec.eq_of_toNat_eq
      simp
      omega
    · rw [hstep]
      congr 1
      have hsmall : val.toNat < 10 := by
        by_contra hge
        have hzero : val / 10 ≠ 0 := by
          intro hz
          have := congrArg BitVec.toNat hz
          simp at this
          omega
        have hi0 : i = 0 := by
          by_contra hne
          exact hmore ⟨hne, hzero⟩
        subst hi0
        omega
      apply BitVec.eq_of_toNat_eq
      simp
      omega

theorem digits_isDigit {i : Nat} {val : BitVec 64} {buf : List (BitVec 8)}
    (hbuf : ∀ d ∈ buf, IsDigit d) : ∀ d ∈ Fmt.digits i val buf, IsDigit d := by
  induction i generalizing val buf with
  | zero => exact hbuf
  | succ i ih =>
    have hbuf' : ∀ d ∈ (48#8 + (val % 10).setWidth 8) :: buf, IsDigit d := by
      intro d hd
      rcases List.mem_cons.mp hd with rfl | hd
      · have hval : (48#8 + (val % 10).setWidth 8).toNat = 48 + val.toNat % 10 := by
          rw [BitVec.toNat_add, BitVec.toNat_setWidth, BitVec.toNat_umod]
          simp
          omega
        rw [IsDigit, hval]
        omega
      · exact hbuf d hd
    rw [Fmt.digits]
    split_ifs
    · exact ih hbuf'
    · exact hbuf'

theorem digits_length {i : Nat} {val : BitVec 64} {buf : List (BitVec 8)} (hi : 0 < i) :
    0 < (Fmt.digits i val buf).length ∧ (Fmt.digits i val buf).length ≤ i + buf.length := by
  induction i generalizing val buf with
  | zero => omega
  | succ i ih =>
    rw [Fmt.digits]
    split_ifs with hmore
    · have hrec := @ih (val / 10) ((48#8 + (val % 10).setWidth 8) :: buf) (by omega)
      simp only [List.length_cons] at hrec ⊢
      omega
    · simp only [List.length_cons]
      omega

/-! ## Numbers -/

/-- What is written for a number. -/
def Number.text : Number → List (BitVec 8)
  | int64 val => if val.slt 0 then 45#8 :: Fmt.digits 24 (-val) [] else Fmt.digits 24 val []
  | uint64 val => Fmt.digits 24 val []

theorem write_out {f : Fmt} (h : f.err = 0) (chars : List (BitVec 8)) :
    f.write chars = { f with out := f.out ++ chars } := by
  rw [Fmt.write]
  cases chars with
  | nil => simp
  | cons b bs => simp [h]

theorem put_out {f : Fmt} (h : f.err = 0) (v : Number) :
    f.put v = { f with out := f.out ++ v.text } := by
  have hput : ∀ (g : Fmt) val, g.err = 0 →
      g.putUInt64 val = { g with out := g.out ++ Fmt.digits 24 val [] } := by
    intro g val hg
    rw [Fmt.putUInt64, if_neg (not_not_intro hg), write_out hg]
  cases v with
  | uint64 val => exact hput f val h
  | int64 val =>
    rw [Fmt.put, Fmt.putInt64, Number.text]
    split_ifs with hneg
    · rw [write_out h]
      have hsign := hput { f with out := f.out ++ [45#8] } (-val) h
      rw [hsign]
      simp
    · exact hput f val h

theorem putAll_out {f : Fmt} (h : f.err = 0) (items : List (List (BitVec 8) × Number)) :
    (f.putAll items).out = f.out ++ (Fmt.init.putAll items).out := by
  have hall : ∀ g : Fmt, g.err = 0 →
      (g.putAll items).out = g.out ++ items.flatMap fun item => item.1 ++ item.2.text := by
    induction items with
    | nil => simp [Fmt.putAll]
    | cons item items ih =>
      intro g hg
      rw [Fmt.putAll, List.foldl_cons, write_out hg]
      have hg' : ({ g with out := g.out ++ item.1 } : Fmt).err = 0 := hg
      rw [put_out hg']
      have hrec := ih { g with out := g.out ++ item.1 ++ item.2.text } hg
      rw [Fmt.putAll] at hrec
      rw [hrec]
      simp
  rw [hall f h, hall Fmt.init rfl]
  rfl

theorem putAll_cons (ws : List (BitVec 8)) (v : Number)
    (items : List (List (BitVec 8) × Number)) :
    (Fmt.init.putAll ((ws, v) :: items)).out = ws ++ (v.text ++ (Fmt.init.putAll items).out) := by
  have hinit : Fmt.init.err = 0 := rfl
  have hfirst : Fmt.init.putAll ((ws, v) :: items) =
      Fmt.putAll { Fmt.init with out := ws ++ v.text } items := by
    rw [Fmt.putAll, List.foldl_cons, write_out hinit]
    have hws : ({ Fmt.init with out := Fmt.init.out ++ ws } : Fmt).err = 0 := rfl
    rw [put_out hws]
    rfl
  rw [hfirst, putAll_out rfl, List.append_assoc]

section Numbers

variable {rd} {s : Scan ρ} {ws rest : List (BitVec 8)} {fuel : Nat}

/-- A list that starts with a digit. -/
theorem noSpace_digits (val : BitVec 64) (rest : List (BitVec 8)) :
    NoSpace (Fmt.digits 24 val [] ++ rest) := by
  have hdigits := @digits_isDigit 24 val [] (by simp)
  have hlen := (@digits_length 24 val [] (by decide)).1
  intro b hb
  rcases hds : Fmt.digits 24 val [] with _ | ⟨d, ds⟩
  · rw [hds] at hlen
    simp at hlen
  · rw [hds] at hb hdigits
    cases hb
    have hd := hdigits b (by simp)
    rw [IsDigit] at hd
    omega

theorem getUInt64_spec {val : BitVec 64} (hws : ∀ b ∈ ws, b.toNat ≤ 32) (hrest : NoDigit rest)
    (h : Remains rd s (ws ++ (Fmt.digits 24 val [] ++ rest))) (hfuel : ws.length + 25 < fuel) :
    ∃ s', s.getUInt64 rd fuel = some (val, s') ∧ Ahead rd s' rest := by
  have hlen := (@digits_length 24 val [] (by decide)).2
  have hlt : ws.length < fuel := by omega
  obtain ⟨s₁, hskip, hahead⟩ := skipWhitespace_spec hws (noSpace_digits val rest) h hlt
  obtain ⟨s₂, hloop, hahead'⟩ := @digitsLoop_spec _ rd s₁ rest (Fmt.digits 24 val []) fuel 0
    (digits_isDigit (by simp)) hrest (.inr hahead) (by simp at hlen; omega)
  refine ⟨s₂, ?_, hahead'⟩
  have hbound : val.toNat < 10 ^ 24 := by
    have := val.isLt
    omega
  rw [Scan.getUInt64, hskip, Option.bind_some, hloop, readDigits_digits [] hbound (by decide)]
  rfl

/-- A number is read back, and no byte behind the first one that follows it is taken. -/
theorem get_spec (v : Number) (hws : ∀ b ∈ ws, b.toNat ≤ 32) (hrest : NoDigit rest)
    (h : Remains rd s (ws ++ (v.text ++ rest))) (hfuel : ws.length + 25 < fuel) :
    ∃ s', s.get rd fuel v.type = some (v, s') ∧ Ahead rd s' rest := by
  cases v with
  | uint64 val =>
    obtain ⟨s', hget, hahead⟩ := getUInt64_spec hws hrest h hfuel
    refine ⟨s', ?_, hahead⟩
    rw [Number.type, Scan.get, hget]
    rfl
  | int64 val =>
    have hnone : ∀ b ∈ ([] : List (BitVec 8)), b.toNat ≤ 32 := by simp
    have hlt : ws.length < fuel := by omega
    rw [Number.type, Scan.get, Scan.getInt64]
    by_cases hneg : val.slt 0
    · -- the sign is taken, and the digits of the negation follow
      rw [Number.text, if_pos hneg] at h
      have hspace : NoSpace (45#8 :: Fmt.digits 24 (-val) [] ++ rest) := by
        intro b hb
        cases hb
        decide
      obtain ⟨s₁, hskip, hahead⟩ := skipWhitespace_spec hws hspace h hlt
      obtain ⟨s₂, hpeek, hahead₂⟩ := peek_cons (.inr hahead)
      have hremains : Remains rd (s₂.advance rd).2 ([] ++ (Fmt.digits 24 (-val) [] ++ rest)) :=
        .inl (advance_cons hahead₂)
      have hfuel' : ([] : List (BitVec 8)).length + 25 < fuel := by
        simp only [List.length_nil]
        omega
      obtain ⟨s₃, hget, hahead₃⟩ := getUInt64_spec hnone hrest hremains hfuel'
      refine ⟨s₃, ?_, hahead₃⟩
      have hminus : ((45#8).toNat : Int) = 45 := rfl
      rw [hskip, Option.bind_some, hpeek]
      simp only [hminus, if_true, hget, Option.map_some, BitVec.neg_neg]
    · rw [Number.text, if_neg hneg] at h
      obtain ⟨s₁, hskip, hahead⟩ := skipWhitespace_spec hws (noSpace_digits val rest) h hlt
      have hdigits := @digits_isDigit 24 val [] (by simp)
      have hlen := (@digits_length 24 val [] (by decide)).1
      rcases hds : Fmt.digits 24 val [] with _ | ⟨d, ds⟩
      · rw [hds] at hlen
        simp at hlen
      · rw [hds] at hahead hdigits
        obtain ⟨s₂, hpeek, hahead₂⟩ := peek_cons (.inr hahead)
        have hd := (hdigits d (by simp)).1
        have hne : ¬ (d.toNat : Int) = 45 := by omega
        have hremains : Remains rd s₂ ([] ++ (Fmt.digits 24 val [] ++ rest)) := by
          rw [hds]
          exact .inr hahead₂
        have hfuel' : ([] : List (BitVec 8)).length + 25 < fuel := by
          simp only [List.length_nil]
          omega
        obtain ⟨s₃, hget, hahead₃⟩ := getUInt64_spec hnone hrest hremains hfuel'
        refine ⟨s₃, ?_, hahead₃⟩
        rw [hskip, Option.bind_some, hpeek]
        simp only [hne, if_false, hget, Option.map_some]

end Numbers

/-- What follows a number: white space before the next one, or what is behind all of them. -/
theorem noDigit_next {items : List (List (BitVec 8) × Number)} {rest : List (BitVec 8)}
    (hsep : ∀ item ∈ items, item.1 ≠ [] ∧ ∀ b ∈ item.1, b.toNat ≤ 32) (hrest : NoDigit rest) :
    NoDigit ((Fmt.init.putAll items).out ++ rest) := by
  cases items with
  | nil => exact hrest
  | cons item items =>
    obtain ⟨ws, v⟩ := item
    obtain ⟨hne, hws⟩ := hsep (ws, v) (by simp)
    rw [putAll_cons]
    cases ws with
    | nil => exact absurd rfl hne
    | cons b ws =>
      intro x hx
      cases hx
      have hb := hws b (by simp)
      omega

theorem readBack_of_remains {items : List (List (BitVec 8) × Number)} {rest : List (BitVec 8)}
    {s : Scan ρ} {fuel : Nat} (hws : ∀ item ∈ items, ∀ b ∈ item.1, b.toNat ≤ 32)
    (hne : ∀ item ∈ items.tail, item.1 ≠ []) (hrest : NoDigit rest)
    (h : Remains rd s ((Fmt.init.putAll items).out ++ rest))
    (hfuel : ∀ item ∈ items, item.1.length + 25 < fuel) : ReadBack rd fuel rest items s := by
  induction items generalizing s with
  | nil => trivial
  | cons item items ih =>
    obtain ⟨ws, v⟩ := item
    rw [putAll_cons, List.append_assoc, List.append_assoc] at h
    have hsep : ∀ item ∈ items, item.1 ≠ [] ∧ ∀ b ∈ item.1, b.toNat ≤ 32 :=
      fun item hitem => ⟨hne item hitem, hws item (by simp [hitem])⟩
    obtain ⟨s', hget, hahead⟩ := get_spec v (hws (ws, v) (by simp)) (noDigit_next hsep hrest) h
      (hfuel (ws, v) (by simp))
    refine ⟨s', hget, hahead, ih (fun item hitem => hws item (by simp [hitem]))
      (fun item hitem => hne item (List.mem_of_mem_tail hitem)) (.inr hahead)
      fun item hitem => hfuel item (by simp [hitem])⟩

end Scan

/-- Numbers that are printed one after another, with white space between them, are read back as the
same values from any reader that returns the bytes in order, and no byte behind the first one after
each number is taken from the reader. -/
theorem scan_undoes_print {ρ : Type} (rd : Reader ρ) (r : ρ)
    (items : List (List (BitVec 8) × Number)) (rest : List (BitVec 8))
    (hws : ∀ item ∈ items, ∀ b ∈ item.1, b.toNat ≤ 32) (hne : ∀ item ∈ items.tail, item.1 ≠ [])
    (hrest : NoDigit rest) (hr : Serves rd r ((Fmt.init.putAll items).out ++ rest)) :
    ∃ m, ∀ fuel, m ≤ fuel → ReadBack rd fuel rest items (Scan.init r) := by
  refine ⟨(items.map fun item => item.1.length).sum + 26, fun fuel hfuel => ?_⟩
  apply readBack_of_remains rd hws hne hrest
  · exact .inl ⟨rfl, rfl, hr⟩
  · intro item hitem
    have hmem := List.mem_map_of_mem (f := fun item : List (BitVec 8) × Number => item.1.length) hitem
    have hle := List.le_sum_of_mem hmem
    omega

/-- A reader of a list. -/
def listReader : Reader (List (BitVec 8)) where
  read
    | [] => (0, 0, [])
    | b :: bs => (1, b, bs)

theorem serves_listReader (bs : List (BitVec 8)) : Serves listReader bs bs := by
  induction bs with
  | nil => exact .nil (Int.le_refl 0)
  | cons b bs ih => exact .cons (by decide) rfl ih

/-- The smallest and the largest number, on two lines. -/
theorem scan_undoes_print_extremes : ∃ m, ∀ fuel, m ≤ fuel →
    ReadBack listReader fuel [10#8]
      [([], .int64 (BitVec.intMin 64)), ([10#8], .uint64 (BitVec.allOnes 64))]
      (Scan.init ((Fmt.init.putAll
        [([], .int64 (BitVec.intMin 64)), ([10#8], .uint64 (BitVec.allOnes 64))]).out ++ [10#8])) :=
  scan_undoes_print listReader _ _ _
    (by simp)
    (by simp)
    (by intro b hb; cases hb; decide)
    (serves_listReader _)

end OneJit.Stl
