import OneJit.Go.Located
import OneJit.Go.Sort
import OneJit.Go.Whole

/-!
# File sets

`FileSet.AddFile` puts a file behind the end of the one before, and `FileSet.Position` looks for the
first file whose end is not before a position. While a file is not scanned to its end, its end is
computed from the offset of its last line. The positions are mapped back as long as no file is added
before that end is behind the bytes that are taken, and no file but the last one grows.
-/

namespace OneJit.Go

namespace TokenFile

/-- `Size`: the size, or the offset of the last line where it is unknown. -/
def sizeOrBound (f : TokenFile) : Int := if 0 ≤ f.size then f.size else f.last

/-- `End`. -/
def endOffset (f : TokenFile) : Int := f.base + f.sizeOrBound

/-- The end is not before the base. -/
theorem base_le_endOffset {f : TokenFile} (h : 0 ≤ f.base) : f.base ≤ f.endOffset := by
  have hlast := f.base_le_last
  unfold endOffset sizeOrBound
  split <;> omega

end TokenFile

/-- `token.FileSet`. -/
structure FileSet where
  pkgPath : String
  files : List TokenFile

namespace FileSet

/-- `Size`. -/
def size (f : FileSet) : Int :=
  match f.files.getLast? with
  | none => 0
  | some last => if 0 ≤ last.endOffset then last.endOffset else last.last

/-- `AddFile`. -/
def addFile (f : FileSet) (name : String) : TokenFile × FileSet :=
  let file := TokenFile.new name f.size
  (file, { f with files := f.files ++ [file] })

/-- Whether the file with an index ends at a position or behind it. -/
def endsBehind (files : List TokenFile) (p i : Int) : Bool :=
  files[i.toNat]?.any fun file => p ≤ file.endOffset

/-- `Position`. It panics where the file has no such position. -/
def position (f : FileSet) (p : Int) : Option Position :=
  if f.files = [] ∨ p = 0 then some ⟨"", p, 0, 0⟩
  else (Sort.search f.files.length (endsBehind f.files p)).bind fun (index, _) =>
    let index := if index = f.files.length then index - 1 else index
    f.files[index.toNat]?.bind fun file => file.position p

open Bisect in
/-- A position behind the ends of the files before, and not behind the end of its own file, is found
there. -/
theorem position_eq {f : FileSet} {p : Int} {k : Nat} {file : TokenFile} (hp : p ≠ 0)
    (hlen : f.files.length < 2 ^ 63) (hfile : f.files[k]? = some file)
    (hbefore : ∀ (i : Nat) file', i < k → f.files[i]? = some file' → file'.endOffset < p)
    (hbehind : ∀ (i : Nat) file', k ≤ i → i + 1 < f.files.length → f.files[i]? = some file' →
      p ≤ file'.endOffset) : f.position p = file.position p := by
  obtain ⟨hk, -⟩ := List.getElem?_eq_some_iff.mp hfile
  obtain ⟨n, hn⟩ : ∃ n, f.files.length = n + 1 := ⟨f.files.length - 1, by omega⟩
  have hne : f.files ≠ [] := List.ne_nil_of_length_pos (by omega)
  have hends : ∀ i : Nat, i < n → (endsBehind f.files p i = true ↔ k ≤ i) := by
    intro i hi
    have hsome := List.getElem?_eq_getElem (show i < f.files.length by omega)
    rw [endsBehind, Int.toNat_natCast, hsome, Option.any_some, decide_eq_true_eq]
    constructor
    · intro hle
      by_contra hlt
      exact absurd (hbefore i _ (by omega) hsome) (by omega)
    · intro hle
      exact hbehind i _ hle (by omega) hsome
  have hfirst := @bisect_first (fun i => endsBehind f.files p i) (n + 1) 0 n (Nat.zero_le n) (by omega)
    (fun i j _ hij hj hi => (hends j hj).mpr (((hends i (by omega)).mp hi).trans hij))
  have hexpected : FirstIn (fun i : Nat => endsBehind f.files p i = true) 0 n k := by
    refine ⟨Nat.zero_le k, by omega, fun i _ hi htrue => ?_, fun hkn => (hends k hkn).mpr le_rfl⟩
    exact absurd ((hends i (by omega)).mp htrue) (by omega)
  rw [position, if_neg (by simp [hne, hp]), hn, Sort.search_succ _ (by omega), Option.bind_some]
  dsimp only
  rw [hfirst.unique hexpected, if_neg (by omega), Int.toNat_natCast, hfile, Option.bind_some]

end FileSet

/-! ## Scanning the files -/

/-- A file, its scanner, and the positions that were handed out. -/
structure Entry where
  file : TokenFile
  scanner : Scanner
  input : Input
  handed : List Int
  reads : scanner.file = some file

namespace Entry

/-- A file that was added, and the scanner after `Init`. -/
def init (file : TokenFile) (s : Scanner) (i : Input) : Entry := ⟨file, s.init (some file), i, [], rfl⟩

/-- The offset behind the last byte of the file. -/
def total (e : Entry) : Int := e.scanner.endpos + e.input.remaining.length

/-- A call of `Scan`. `PosEnd` hands two positions out. -/
def scan (unicode : Unicode) (e : Entry) : Option Entry :=
  ((ScanM.scan unicode).run e.scanner e.input).bind fun x =>
    match h : x.2.1.file with
    | none => none
    | some file => some ⟨file, x.2.1, x.2.2, x.2.1.pos :: x.2.1.endpos :: e.handed, h⟩

end Entry

/-- The set of the files. -/
def fileSet (pkgPath : String) (es : List Entry) : FileSet := ⟨pkgPath, es.map Entry.file⟩

/-- `AddFile`, and `Init` for that file. -/
def addEntry (es : List Entry) (name : String) (s : Scanner) (i : Input) : List Entry :=
  es ++ [.init ((fileSet "" es).addFile name).1 s i]

/-- A call of `Scan` for a file. -/
def scanEntry (unicode : Unicode) (es : List Entry) (k : Nat) : Option (List Entry) :=
  es[k]?.bind fun e => (e.scan unicode).map fun e' => es.set k e'

/-- Each position is mapped back to the file for which it was handed out. -/
def MapsBack (es : List Entry) : Prop :=
  ∀ e ∈ es, ∀ p ∈ e.handed, ∀ pkgPath, ∃ pos, (fileSet pkgPath es).position p = some pos ∧
    e.file.position p = some pos ∧ pos.filename = e.file.name

/-- A file may be added when the end of the last one is not before the bytes that are taken of it. -/
def MayAdd (es : List Entry) : Prop :=
  es.length + 1 < 2 ^ 63 ∧ ∀ e, es.getLast? = some e → e.scanner.endpos ≤ e.file.endOffset

/-- A file may be scanned when it has bytes and is the last one, or has no more lines and ends where
its bytes end or behind it. -/
def MayScan (es : List Entry) (k : Nat) : Prop :=
  ∀ e, es[k]? = some e → e.file.base < e.total ∧
    (k + 1 = es.length ∨ 10 ∉ e.input.remaining ∧ e.total ≤ e.file.endOffset)

/-- The runs whose steps all meet these conditions. -/
inductive Run (unicode : Unicode) : List Entry → Prop
  | nil : Run unicode []
  | add {es : List Entry} (name : String) (s : Scanner) (i : Input) (h : Run unicode es)
      (hadd : MayAdd es) : Run unicode (addEntry es name s i)
  | scan {es es' : List Entry} (k : Nat) (h : Run unicode es) (hscan : MayScan es k)
      (hrun : scanEntry unicode es k = some es') : Run unicode es'

/-! ## One call -/

namespace ScanM

/-- More bytes are taken. -/
instance (I : Scanner → Input → Prop) [Stable I] (c : Int) :
    Stable fun s i => I s i ∧ c ≤ s.endpos where
  frame h hfile hpos hend := ⟨Stable.frame h.1 hfile hpos hend, hend ▸ h.2⟩
  position h := Stable.position h.1
  found h hsize := ⟨Stable.found h.1 hsize, Int.le_trans h.2 (Int.le_add_of_nonneg_right
    (Int.natCast_nonneg _))⟩
  invalid h hsize := ⟨Stable.invalid h.1 hsize, Int.le_trans h.2 (Int.le_add_of_nonneg_right
    (by decide))⟩
  eof h hsize := ⟨Stable.eof h.1 hsize, h.2⟩

instance (I : Scanner → Input → Prop) [Stable I] (c : Int) :
    Stable fun s i => I s i ∧ c < s.pos where
  frame h hfile hpos hend := ⟨Stable.frame h.1 hfile hpos hend, hpos ▸ h.2⟩
  position h := Stable.position h.1
  found h hsize := ⟨Stable.found h.1 hsize, h.2⟩
  invalid h hsize := ⟨Stable.invalid h.1 hsize, h.2⟩
  eof h hsize := ⟨Stable.eof h.1 hsize, h.2⟩

variable {name : String} {base total : Int} {s : Scanner} {i : Input}

/-- `next` takes a byte, unless none remains. -/
theorem next_advances (hs : Located name base total s i) (hunread : s.unread = runeNone)
    (hrest : i.remaining ≠ []) : ∃ ch s' i', next.run s i = some (ch, s', i') ∧
      Located name base total s' i' ∧ s.endpos + 1 ≤ s'.endpos := by
  have hnext : next.run s i = nextLoop (i.remaining.length + 1) s i := if_neg (not_not_intro hunread)
  have hpos := Utf8.decodeRune_pos (Input.fill_available_ne hrest)
  rw [hnext]
  unfold nextLoop
  dsimp only
  rw [if_neg (Nat.ne_of_gt hpos)]
  split
  · next hinvalid =>
    have hone : (Utf8.decodeRune i.fill.available).2 = 1 := by omega
    have hlt := Input.length_step_lt hpos
    obtain ⟨pos, heq⟩ := Option.ne_none_iff_exists'.mp (Stable.position hs)
    rw [Scanner.error, heq, Option.map_some, Option.bind_some]
    have hs' : Located name base total
        { s.error1 ⟨pos, errInvalidUtf8⟩ with endpos := s.endpos + 1 } i.step :=
      Stable.invalid (Stable.frame hs rfl rfl rfl) hone
    obtain ⟨ch, s', i', hrun, hall⟩ := nextLoop_maintains
      (I := fun s' i' => Located name base total s' i' ∧ s.endpos + 1 ≤ s'.endpos) i.remaining.length
      ⟨hs', Int.le_refl _⟩ hlt
    exact ⟨ch, s', i', hrun, hall⟩
  · refine ⟨_, _, _, rfl, Stable.found hs (Nat.ne_of_gt hpos), ?_⟩
    change s.endpos + 1 ≤ s.endpos + _
    omega

/-- The scanner was not called after `Init`. -/
structure AtStart (base : Int) (s : Scanner) : Prop where
  ch : s.ch = runeBOF
  unread : s.unread = runeNone
  status : s.status = .normal
  endpos : s.endpos = base

theorem skipSpaces_advances (hs : Located name base total s i) (hstart : AtStart base s)
    (hrest : i.remaining ≠ []) : ∃ ch s' i', skipSpaces.run s i = some (ch, s', i') ∧
      Located name base total s' i' ∧ s.endpos + 1 ≤ s'.endpos := by
  obtain ⟨ch, s₁, i₁, hnext, hs₁⟩ := next_advances hs hstart.unread hrest
  have hm : Maintains (fun s' i' => Located name base total s' i' ∧ s.endpos + 1 ≤ s'.endpos) (do
      let ch ← if ch = runeBOM then next else pure ch
      skipLoop (i.remaining.length + 2) ch) := inferInstance
  obtain ⟨ch', s₂, i₂, hrun, hs₂⟩ := hm.run hs₁
  refine ⟨ch', s₂, i₂, ?_, hs₂⟩
  rw [skipSpaces_bof hstart.ch, run_bind, hnext]
  exact hrun

/-- After a call for a file with bytes, the positions are behind its base. -/
theorem scan_advances (unicode : Unicode) (hs : Located name base total s i)
    (hstart : AtStart base s ∨ base < s.pos) (hbytes : base < total) :
    ∃ r s' i', (scan unicode).run s i = some (r, s', i') ∧ Located name base total s' i' ∧
      base < s'.pos ∧ s.endpos ≤ s'.endpos := by
  rcases hstart with hstart | hpos
  · have hne : s.status ≠ .cached := by
      rw [hstart.status]
      decide
    have hrest : i.remaining ≠ [] := by
      intro hnil
      have htotal := hs.total
      rw [hnil, hstart.endpos] at htotal
      simp only [List.length_nil] at htotal
      omega
    obtain ⟨ch, s₁, i₁, hskip, hs₁, hlt⟩ := skipSpaces_advances hs hstart hrest
    obtain ⟨r, s', i', hfrom, hs', hpos⟩ := scanFrom_located unicode ch hs₁
    have hle := hs'.pos_le
    have hbase := hstart.endpos
    refine ⟨r, s', i', ?_, hs', by omega, by omega⟩
    rw [scan_run unicode hne, hskip]
    exact hfrom
  · have hm : Maintains
        (fun s' i' => (Located name base total s' i' ∧ base < s'.pos) ∧ s.endpos ≤ s'.endpos)
        (scan unicode) := by
      refine scan_maintains unicode ?_
      rintro s' i' ⟨⟨hs', hlt⟩, hle⟩
      exact ⟨⟨hs'.mark, Int.lt_of_lt_of_le hlt hs'.pos_le⟩, hle⟩
    obtain ⟨r, s', i', hrun, ⟨hs', hlt⟩, hle⟩ := hm.run ⟨⟨hs, hpos⟩, Int.le_refl _⟩
    exact ⟨r, s', i', hrun, hs', hlt, hle⟩

end ScanM

/-- A line feed is taken from a byte only. -/
theorem mem_of_decodeRune {bs : Bytes} (hsize : (Utf8.decodeRune bs).2 ≠ 0)
    (h : (Utf8.decodeRune bs).1 = 10) : 10 ∈ bs := by
  obtain _ | ⟨b, bs⟩ := bs
  · exact absurd rfl hsize
  · have hne : Utf8.decodeRune (b :: bs) ≠ (Utf8.runeError, 1) := by
      intro heq
      rw [heq] at h
      exact absurd h (by decide)
    have hbytes := Utf8.encodeRune_decodeRune hne
    rw [h] at hbytes
    have hmem : (10 : UInt8) ∈ (b :: bs).take (Utf8.decodeRune (b :: bs)).2 := by
      rw [← hbytes]
      decide
    exact List.mem_of_mem_take hmem

theorem Input.remaining_step_subset (i : Input) : i.step.remaining ⊆ i.remaining := by
  rw [Input.step, remaining_skip, remaining_fill]
  exact List.drop_subset _ _

theorem Input.available_subset (i : Input) : i.fill.available ⊆ i.remaining := by
  rw [← i.remaining_fill, remaining]
  exact List.subset_append_left _ _

/-- The file has these lines, and no more of them remain. A size that is known stays known. -/
structure Complete (lines : List Int) (known : Prop) (s : Scanner) (i : Input) : Prop where
  file : ∃ f, s.file = some f ∧ f.line = lines ∧ (known → 0 ≤ f.size)
  line : 10 ∉ i.remaining

instance (name : String) (base total : Int) (lines : List Int) (known : Prop) :
    Stable fun s i => Located name base total s i ∧ Complete lines known s i where
  frame {s s' i} h hfile hpos hend := by
    obtain ⟨hs, ⟨f, hf, hlines, hknown⟩, hline⟩ := h
    exact ⟨Stable.frame hs hfile hpos hend, ⟨f, hfile.trans hf, hlines, hknown⟩, hline⟩
  position h := Stable.position h.1
  found {s i} h hsize := by
    obtain ⟨hs, ⟨f, hf, hlines, hknown⟩, hline⟩ := h
    refine ⟨Stable.found hs hsize, ⟨f, ?_, hlines, hknown⟩, fun hmem =>
      hline (i.remaining_step_subset hmem)⟩
    have hne : ((Utf8.decodeRune i.fill.available).1 : Int) ≠ rune '\n' := fun heq =>
      hline (i.available_subset (mem_of_decodeRune hsize (Int.ofNat_inj.mp heq)))
    exact (if_neg hne).trans hf
  invalid {s i} h hsize :=
    ⟨Stable.invalid h.1 hsize, h.2.file, fun hmem => h.2.line (i.remaining_step_subset hmem)⟩
  eof {s i} h hsize := by
    obtain ⟨hs, ⟨f, hf, hlines, hknown⟩, hline⟩ := h
    have heof := Stable.eof hs hsize
    refine ⟨heof, ⟨f.setSize (s.endpos - f.base), by rw [Scanner.foundEOF, hf]; rfl, hlines, ?_⟩,
      fun hmem => hline (i.remaining_step_subset hmem)⟩
    intro _
    obtain ⟨f', hf', -, hbase, -⟩ := hs.file
    rw [hf, Option.some.injEq] at hf'
    subst hf'
    have hle := Int.le_trans hs.base_le hs.pos_le
    change 0 ≤ s.endpos - f.base
    omega

/-! ## The entries -/

namespace Entry

/-- What is true of each entry: the positions that were handed out are behind the base of its file. -/
structure Ok (e : Entry) : Prop where
  base_nonneg : 0 ≤ e.file.base
  located : Located e.file.name e.file.base e.total e.scanner e.input
  start : ScanM.AtStart e.file.base e.scanner ∨ e.file.base < e.scanner.pos
  handed : ∀ p ∈ e.handed, e.file.base < p ∧ p ≤ e.scanner.endpos

theorem ok_init {name : String} {base : Int} (h : 0 ≤ base) (s : Scanner) (i : Input) :
    (Entry.init (.new name base) s i).Ok where
  base_nonneg := h
  located := located_init s name base i
  start := .inl ⟨rfl, rfl, rfl, rfl⟩
  handed := by
    intro p hp
    cases hp

theorem scan_eq {unicode : Unicode} {e : Entry} {r : Token × Bytes} {s' : Scanner} {i' : Input}
    {f : TokenFile} (hrun : (ScanM.scan unicode).run e.scanner e.input = some (r, s', i'))
    (hf : s'.file = some f) :
    e.scan unicode = some ⟨f, s', i', s'.pos :: s'.endpos :: e.handed, hf⟩ := by
  rw [scan, hrun, Option.bind_some]
  dsimp only
  split
  · next hnone =>
    rw [hf] at hnone
    cases hnone
  · next file hfile =>
    have heq : file = f := Option.some.inj (hfile.symm.trans hf)
    subst heq
    rfl

/-- What a call does to an entry. -/
theorem Ok.scan (unicode : Unicode) {e : Entry} (h : e.Ok) (hbytes : e.file.base < e.total) :
    ∃ e', e.scan unicode = some e' ∧ e'.Ok ∧ e'.file.base = e.file.base ∧ e'.total = e.total := by
  obtain ⟨r, s', i', hrun, hs', hlt, hle⟩ :=
    ScanM.scan_advances unicode h.located h.start hbytes
  obtain ⟨f, hf, hname, hbase, -⟩ := hs'.file
  refine ⟨_, scan_eq hrun hf, ?_, hbase, hs'.total⟩
  have htotal : (⟨f, s', i', s'.pos :: s'.endpos :: e.handed, hf⟩ : Entry).total = e.total :=
    hs'.total
  refine ⟨?_, ?_, .inr ?_, ?_⟩
  · rw [hbase]
    exact h.base_nonneg
  · rw [htotal, hname, hbase]
    exact hs'
  · rw [hbase]
    exact hlt
  · intro p hp
    rw [hbase]
    have hpos := hs'.pos_le
    rcases List.mem_cons.mp hp with rfl | hp
    · exact ⟨hlt, hpos⟩
    · rcases List.mem_cons.mp hp with rfl | hp
      · exact ⟨by omega, Int.le_refl _⟩
      · obtain ⟨hlow, hhigh⟩ := h.handed p hp
        exact ⟨hlow, Int.le_trans hhigh hle⟩

/-- A call for a file without more lines does not move its end behind its bytes. -/
theorem Ok.scan_complete {unicode : Unicode} {e e' : Entry} (h : e.Ok)
    (hline : 10 ∉ e.input.remaining) (hend : e.total ≤ e.file.endOffset)
    (hscan : e.scan unicode = some e') :
    e'.file.endOffset ≤ e.file.endOffset ∧ e'.scanner.endpos ≤ e'.file.endOffset := by
  have hm : ScanM.Maintains (fun s i => Located e.file.name e.file.base e.total s i ∧
      Complete e.file.line (0 ≤ e.file.size) s i) (ScanM.scan unicode) := by
    refine ScanM.scan_maintains unicode ?_
    rintro s i ⟨hs, hc⟩
    exact ⟨hs.mark, hc.file, hc.line⟩
  obtain ⟨r, s', i', hrun, hs', ⟨f, hf, hlines, hknown⟩, -⟩ :=
    hm.run ⟨h.located, ⟨e.file, e.reads, rfl, id⟩, hline⟩
  rw [scan_eq hrun hf, Option.some.injEq] at hscan
  subst hscan
  obtain ⟨f', hf', -, hbase, -, hsize⟩ := hs'.file
  rw [hf, Option.some.injEq] at hf'
  subst hf'
  have htotal := hs'.total
  have hlast : f.last = e.file.last := by
    unfold TokenFile.last
    simp only [hlines]
  dsimp only
  unfold TokenFile.endOffset TokenFile.sizeOrBound at hend ⊢
  rcases hsize with hunknown | ⟨heq, hnil⟩
  · have hunknown' : ¬ 0 ≤ e.file.size := fun hk => absurd (hknown hk) (by omega)
    rw [if_neg hunknown'] at hend ⊢
    rw [if_neg (by omega), hlast, hbase]
    omega
  · have hpos := Int.le_trans hs'.base_le hs'.pos_le
    rw [hnil] at htotal
    simp only [List.length_nil] at htotal
    rw [if_pos (show 0 ≤ f.size by omega), heq, hbase]
    constructor
    · refine Int.le_trans (Int.le_of_eq ?_) hend
      omega
    · omega

end Entry

/-! ## All files -/

/-- Each file ends before the next one begins, and has its bytes before its end unless it is the last
one. -/
structure Apart (es : List Entry) : Prop where
  ok : ∀ (i : Nat) e, es[i]? = some e → e.Ok
  ends : ∀ (i j : Nat) e e', i < j → es[i]? = some e → es[j]? = some e' →
    e.file.endOffset ≤ e'.file.base ∧ e.scanner.endpos ≤ e.file.endOffset
  length : es.length < 2 ^ 63

namespace Apart

theorem nil : Apart [] := ⟨by simp, by simp, by decide⟩

/-- The base of the next file is the end of the last one. -/
theorem size_eq {es : List Entry} (h : Apart es) :
    (∀ e, es.getLast? = some e → (fileSet "" es).size = e.file.endOffset) ∧
      0 ≤ (fileSet "" es).size := by
  unfold FileSet.size fileSet
  rw [List.getLast?_map]
  cases hlast : es.getLast? with
  | none =>
    refine ⟨fun e he => ?_, Int.le_refl 0⟩
    cases he
  | some e =>
    rw [List.getLast?_eq_getElem?] at hlast
    have hok := h.ok _ e hlast
    have hle := Int.le_trans hok.base_nonneg (TokenFile.base_le_endOffset hok.base_nonneg)
    rw [Option.map_some]
    dsimp only
    rw [if_pos hle]
    refine ⟨fun e' he => ?_, hle⟩
    cases he
    rfl

theorem add {es : List Entry} (h : Apart es) (name : String) (s : Scanner) (i : Input)
    (hadd : MayAdd es) : Apart (addEntry es name s i) := by
  obtain ⟨hlen, hlast⟩ := hadd
  obtain ⟨hsize, hnonneg⟩ := h.size_eq
  have hnew : ∀ e, (addEntry es name s i)[es.length]? = some e →
      e = .init (.new name (fileSet "" es).size) s i := by
    intro e he
    rw [addEntry, List.getElem?_concat_length, Option.some.injEq] at he
    exact he.symm
  have hold : ∀ j, j < es.length → (addEntry es name s i)[j]? = es[j]? := by
    intro j hj
    rw [addEntry, List.getElem?_append_left hj]
  have hbound : ∀ j e, (addEntry es name s i)[j]? = some e → j ≤ es.length := by
    intro j e he
    obtain ⟨hj, -⟩ := List.getElem?_eq_some_iff.mp he
    rw [addEntry, List.length_append, List.length_singleton] at hj
    omega
  refine ⟨?_, ?_, by rw [addEntry, List.length_append, List.length_singleton]; exact hlen⟩
  · intro j e he
    rcases (hbound j e he).lt_or_eq with hj | rfl
    · exact h.ok j e ((hold j hj).symm.trans he)
    · rw [hnew e he]
      exact Entry.ok_init hnonneg s i
  · intro j k e e' hjk he he'
    have hk := hbound k e' he'
    rw [hold j (by omega)] at he
    rcases hk.lt_or_eq with hk | rfl
    · exact h.ends j k e e' hjk he ((hold k hk).symm.trans he')
    · -- the new file begins where the last one ends
      have hbase : e'.file.base = (fileSet "" es).size := by
        rw [hnew e' he']
        rfl
      obtain ⟨last, hl⟩ : ∃ last, es[es.length - 1]? = some last :=
        ⟨_, List.getElem?_eq_getElem (show es.length - 1 < es.length by omega)⟩
      have hgetLast : es.getLast? = some last := by rw [List.getLast?_eq_getElem?, hl]
      rw [hbase, hsize last hgetLast]
      rcases (show j ≤ es.length - 1 by omega).lt_or_eq with hj | rfl
      · obtain ⟨hends, hpos⟩ := h.ends j _ e last hj he hl
        have hle := TokenFile.base_le_endOffset (h.ok _ last hl).base_nonneg
        exact ⟨Int.le_trans hends hle, hpos⟩
      · rw [hl, Option.some.injEq] at he
        subst he
        exact ⟨Int.le_refl _, hlast _ hgetLast⟩

theorem scan {unicode : Unicode} {es es' : List Entry} {k : Nat} (h : Apart es)
    (hscan : MayScan es k) (hrun : scanEntry unicode es k = some es') : Apart es' := by
  obtain ⟨e, he, hrun⟩ := Option.bind_eq_some_iff.mp hrun
  obtain ⟨e', he', rfl⟩ := Option.map_eq_some_iff.mp hrun
  obtain ⟨hbytes, hlines⟩ := hscan e he
  obtain ⟨hk, -⟩ := List.getElem?_eq_some_iff.mp he
  obtain ⟨e₁, he₁, hok, hbase, -⟩ := (h.ok k e he).scan unicode hbytes
  rw [he', Option.some.injEq] at he₁
  subst he₁
  -- the other entries are as before
  have hget : ∀ j x, (es.set k e')[j]? = some x → j = k ∧ x = e' ∨ j ≠ k ∧ es[j]? = some x := by
    intro j x hx
    rw [List.getElem?_set] at hx
    split at hx
    · next heq =>
      rw [Option.some.injEq] at hx
      exact .inl ⟨heq.symm, hx.symm⟩
    · next hne => exact .inr ⟨fun heq => hne heq.symm, hx⟩
  refine ⟨?_, ?_, by rw [List.length_set]; exact h.length⟩
  · intro j x hx
    rcases hget j x hx with ⟨-, rfl⟩ | ⟨-, hx⟩
    · exact hok
    · exact h.ok j x hx
  · intro j l x y hjl hx hy
    rcases hget j x hx with ⟨rfl, rfl⟩ | ⟨-, hxold⟩
    · rcases hget l y hy with ⟨rfl, -⟩ | ⟨-, hyold⟩
      · omega
      · obtain ⟨hl, -⟩ := List.getElem?_eq_some_iff.mp hyold
        obtain ⟨hline, hend⟩ := hlines.resolve_left (by omega)
        obtain ⟨hle, hpos⟩ := (h.ok j e he).scan_complete hline hend he'
        exact ⟨Int.le_trans hle (h.ends j l e y hjl he hyold).1, hpos⟩
    · rcases hget l y hy with ⟨rfl, rfl⟩ | ⟨-, hyold⟩
      · rw [hbase]
        exact h.ends j l x e hjl hxold he
      · exact h.ends j l x y hjl hxold hyold

theorem mapsBack {es : List Entry} (h : Apart es) : MapsBack es := by
  intro e he p hp pkgPath
  obtain ⟨k, hk, hget⟩ := List.getElem_of_mem he
  have hek : es[k]? = some e := by rw [List.getElem?_eq_getElem hk, hget]
  have hok := h.ok k e hek
  obtain ⟨hlow, hhigh⟩ := hok.handed p hp
  have hbase := hok.base_nonneg
  have hp0 : p ≠ 0 := by omega
  have hfiles : ∀ (j : Nat) file, (fileSet pkgPath es).files[j]? = some file →
      ∃ x : Entry, es[j]? = some x ∧ x.file = file := by
    intro j file hfile
    rw [fileSet, List.getElem?_map] at hfile
    exact Option.map_eq_some_iff.mp hfile
  have hlength : (fileSet pkgPath es).files.length = es.length := List.length_map _
  have hposition : (fileSet pkgPath es).position p = e.file.position p := by
    refine FileSet.position_eq hp0 (hlength ▸ h.length) (k := k) ?_ ?_ ?_
    · rw [fileSet, List.getElem?_map, hek]
      rfl
    · intro j file hj hfile
      obtain ⟨x, hx, rfl⟩ := hfiles j file hfile
      have hends := (h.ends j k x e hj hx hek).1
      omega
    · intro j file hj hnext hfile
      obtain ⟨x, hx, rfl⟩ := hfiles j file hfile
      rw [hlength] at hnext
      have hsucc := List.getElem?_eq_getElem hnext
      have hends := h.ends j (j + 1) x _ (Nat.lt_succ_self j) hx hsucc
      rcases hj.lt_or_eq with hj | rfl
      · have hbefore := h.ends k j e x hj hek hx
        have hle := TokenFile.base_le_endOffset (h.ok j x hx).base_nonneg
        omega
      · rw [hek, Option.some.injEq] at hx
        subst hx
        omega
  obtain ⟨f, hf, -, -, -, hsize⟩ := hok.located.file
  rw [e.reads, Option.some.injEq] at hf
  subst hf
  obtain ⟨line, column, heq⟩ := @TokenFile.position_eq_some e.file p (by omega) (by omega)
  rw [if_neg hp0] at heq
  exact ⟨_, hposition.trans heq, heq, rfl⟩

end Apart

theorem Run.apart {unicode : Unicode} {es : List Entry} (h : Run unicode es) : Apart es := by
  induction h with
  | nil => exact .nil
  | add name s i _ hadd ih => exact ih.add name s i hadd
  | scan k _ hscan hrun ih => exact ih.scan hscan hrun

/-- In each run whose steps all meet the conditions, the positions are mapped back to their files. -/
theorem positions_map_back {unicode : Unicode} {es : List Entry} (h : Run unicode es) : MapsBack es :=
  h.apart.mapsBack

/-! ## Two files -/

/-- The entries after a call of `Scan` that does not panic. -/
def scanned (es : List Entry) (k : Nat) : List Entry := (scanEntry noLetters es k).getD es

theorem scanEntry_scanned {es : List Entry} {k : Nat} (h : (scanEntry noLetters es k).isSome = true) :
    scanEntry noLetters es k = some (scanned es k) := by
  rw [scanned]
  cases hscan : scanEntry noLetters es k with
  | none =>
    rw [hscan] at h
    cases h
  | some es' => rfl

theorem mayAdd_of_all {es : List Entry} (hlen : es.length + 1 < 2 ^ 63)
    (h : (es.getLast?.all fun e => e.scanner.endpos ≤ e.file.endOffset) = true) : MayAdd es :=
  ⟨hlen, fun e he => of_decide_eq_true (Option.all_eq_true _ _ |>.mp h e he)⟩

theorem mayScan_of_all {es : List Entry} {k : Nat} (hlast : k + 1 = es.length)
    (h : (es[k]?.all fun e => e.file.base < e.total) = true) : MayScan es k :=
  fun e he => ⟨of_decide_eq_true (Option.all_eq_true _ _ |>.mp h e he), .inl hlast⟩

/-- A file with the text `x`. -/
def oneFile : List Entry := addEntry [] "a.go" zeroScanner (.whole [0x78])

/-- Another file, with the text `y`, which is added after the first one is scanned. -/
def twoFiles : List Entry :=
  addEntry (scanned (scanned oneFile 0) 0) "b.go" zeroScanner (.whole [0x79])

theorem run_twoFiles : Run noLetters (scanned twoFiles 1) := by
  have hone : Run noLetters oneFile := .add "a.go" _ _ .nil (mayAdd_of_all (by decide) rfl)
  have hscan : Run noLetters (scanned oneFile 0) :=
    .scan 0 hone (mayScan_of_all rfl (by decide +kernel)) (scanEntry_scanned (by decide +kernel))
  have heof : Run noLetters (scanned (scanned oneFile 0) 0) :=
    .scan 0 hscan (mayScan_of_all (by decide +kernel) (by decide +kernel))
      (scanEntry_scanned (by decide +kernel))
  have htwo : Run noLetters twoFiles :=
    .add "b.go" _ _ heof (mayAdd_of_all (by decide +kernel) (by decide +kernel))
  exact .scan 1 htwo (mayScan_of_all (by decide +kernel) (by decide +kernel))
    (scanEntry_scanned (by decide +kernel))

/-- The positions 1 and 2 are mapped back to the files, one after another. -/
theorem positions_map_back_two :
    (scanned twoFiles 1).map Entry.handed = [[1, 1, 1, 1], [2, 2]] ∧ MapsBack (scanned twoFiles 1) :=
  ⟨by decide +kernel, positions_map_back run_twoFiles⟩

/-- When the second file is added before the first one is scanned, both have the base 0. The position
of `x` in the first file is then found in the second one. -/
theorem found_in_second_file :
    let es := addEntry (addEntry [] "a.go" zeroScanner (.whole [0x78, 0x20, 0x79])) "b.go"
      zeroScanner (.whole [0x7A])
    (scanEntry noLetters es 0).isSome = true ∧
      (scanned es 0)[0]?.map (fun e => (e.file.name, e.handed)) = some ("a.go", [1, 2]) ∧
      (fileSet "" (scanned es 0)).position 1 = some ⟨"b.go", 1, 1, 2⟩ ∧
      ¬ MapsBack (scanned es 0) := by
  intro es
  have hposition : (fileSet "" (scanned es 0)).position 1 = some ⟨"b.go", 1, 1, 2⟩ := by
    decide +kernel
  have hfirst : (scanned es 0)[0]?.map (fun e => (e.file.name, e.handed)) =
      some ("a.go", [1, 2]) := by
    decide +kernel
  refine ⟨by decide +kernel, hfirst, hposition, ?_⟩
  intro hback
  obtain ⟨e, he, heq⟩ := Option.map_eq_some_iff.mp hfirst
  obtain ⟨hname, hhanded⟩ := Prod.mk.inj heq
  obtain ⟨pos, hpos, -, hfile⟩ := hback e (List.mem_of_getElem? he) 1 (by simp [hhanded]) ""
  rw [hposition, Option.some.injEq] at hpos
  rw [← hpos, hname] at hfile
  exact absurd hfile (by decide)

end OneJit.Go
