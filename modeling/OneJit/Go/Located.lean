import OneJit.Go.ScanInvariant

/-!
# The scanner in its file

How far the scanner is in the file that it reads: the bytes that are taken and those that remain are
all bytes of the file, the positions are among the bytes that are taken, and so are the lines.
-/

namespace OneJit.Go

namespace TokenFile

@[simp] theorem name_addLine (f : TokenFile) (offset : Int) : (f.addLine offset).name = f.name := by
  unfold addLine
  split <;> rfl

@[simp] theorem size_addLine (f : TokenFile) (offset : Int) : (f.addLine offset).size = f.size := by
  unfold addLine
  split <;> rfl

@[simp] theorem base_addLine (f : TokenFile) (offset : Int) : (f.addLine offset).base = f.base := by
  unfold addLine
  split
  · rfl
  · exact List.head_append_of_ne_nil f.ne

/-- The last line. -/
def last (f : TokenFile) : Int := f.line.getLast f.ne

theorem base_le_last (f : TokenFile) : f.base ≤ f.last := by
  have hle := (f.sorted.imp fun {_ _} hlt => Int.le_of_lt hlt).rel_getLast (List.head_mem f.ne)
  exact hle

theorem last_addLine (f : TokenFile) (offset : Int) :
    (f.addLine offset).last = max f.last offset := by
  by_cases h : offset ≤ f.line.getLast f.ne
  · rw [addLine, dif_pos h]
    exact (max_eq_left h).symm
  · rw [addLine, dif_neg h]
    exact (List.getLast_append_singleton _).trans (max_eq_right (Int.le_of_lt (not_le.mp h))).symm

/-- `Position` finds each position between the base and the end. -/
theorem position_eq_some {f : TokenFile} {p : Int} (hbase : f.base ≤ p)
    (hsize : f.size < 0 ∨ p - f.base ≤ f.size) :
    ∃ line column, f.position p = some ⟨if p = 0 then "" else f.name, p, line, column⟩ := by
  by_cases hp : p = 0
  · exact ⟨0, 0, by rw [position, if_pos hp, if_pos hp]⟩
  · have hnot : ¬(p < f.base ∨ 0 ≤ f.size ∧ f.size < p - f.base) := by omega
    exact ⟨_, _, by rw [position, if_neg hp, if_neg hnot, if_neg hp]⟩

end TokenFile

/-- The scanner reads a file with this name and this base, whose last byte has the offset `total`. -/
structure Located (name : String) (base total : Int) (s : Scanner) (i : Input) : Prop where
  file : ∃ f, s.file = some f ∧ f.name = name ∧ f.base = base ∧ f.last ≤ s.endpos ∧
    (f.size < 0 ∨ f.size = s.endpos - base ∧ i.remaining = [])
  base_le : base ≤ s.pos
  pos_le : s.pos ≤ s.endpos
  total : s.endpos + i.remaining.length = total

namespace Located

variable {name : String} {base total : Int} {s : Scanner} {i : Input}

theorem mark (h : Located name base total s i) :
    Located name base total { s with pos := s.endpos } i :=
  ⟨h.file, Int.le_trans h.base_le h.pos_le, Int.le_refl _, h.total⟩

end Located

/-- The bytes that remain after some are taken. -/
theorem Input.length_step (i : Input) : (i.step.remaining.length : Int) =
    i.remaining.length - (Utf8.decodeRune i.fill.available).2 := by
  have hle := Utf8.decodeRune_le i.fill.available
  have hlen : i.fill.available.length ≤ i.remaining.length := by
    rw [← i.remaining_fill, remaining, List.length_append]
    exact Nat.le_add_right _ _
  rw [step, remaining_skip, remaining_fill, List.length_drop]
  omega

theorem Input.remaining_ne {i : Input} (h : (Utf8.decodeRune i.fill.available).2 ≠ 0) :
    i.remaining ≠ [] := by
  intro hnil
  have hstep := i.length_step
  rw [hnil] at hstep
  simp only [List.length_nil] at hstep
  omega

theorem Input.remaining_eq_nil {i : Input} (h : (Utf8.decodeRune i.fill.available).2 = 0) :
    i.remaining = [] := by
  by_contra hne
  have hpos := Utf8.decodeRune_pos (fill_available_ne hne)
  omega

instance (name : String) (base total : Int) : Stable (Located name base total) where
  frame {s s' i} h hfile hpos hend := by
    obtain ⟨hf, hbase, hle, htotal⟩ := h
    rw [← hfile, ← hend] at hf
    exact ⟨hf, hpos ▸ hbase, hpos ▸ hend ▸ hle, hend ▸ htotal⟩
  position {s i} h := by
    obtain ⟨f, hfile, -, hbase, -, hsize⟩ := h.file
    have hle := h.base_le
    have hpos := h.pos_le
    obtain ⟨line, column, heq⟩ := @TokenFile.position_eq_some f s.pos (by omega) (by omega)
    simp [Scanner.position, hfile, heq]
  found {s i} h hsize := by
    obtain ⟨⟨f, hfile, hname, hbase, hlast, heof⟩, hle, hpos, htotal⟩ := h
    have hstep := i.length_step
    have hunknown : f.size < 0 := heof.resolve_right fun hnil => Input.remaining_ne hsize hnil.2
    refine ⟨?_, hle, ?_, ?_⟩
    · unfold Scanner.found
      dsimp only
      split
      · refine ⟨f.addLine _, by rw [hfile]; rfl, by simpa, by simpa, ?_, by simp [hunknown]⟩
        rw [TokenFile.last_addLine]
        omega
      · exact ⟨f, hfile, hname, hbase, by omega, .inl hunknown⟩
    · change s.pos ≤ s.endpos + _
      omega
    · change s.endpos + _ + _ = total
      omega
  invalid {s i} h hsize := by
    obtain ⟨⟨f, hfile, hname, hbase, hlast, heof⟩, hle, hpos, htotal⟩ := h
    have hstep := i.length_step
    have hunknown : f.size < 0 := heof.resolve_right fun hnil =>
      Input.remaining_ne (by omega) hnil.2
    refine ⟨⟨f, hfile, hname, hbase, ?_, .inl hunknown⟩, hle, ?_, ?_⟩
    · dsimp only
      omega
    · dsimp only
      omega
    · dsimp only
      omega
  eof {s i} h hsize := by
    obtain ⟨⟨f, hfile, hname, hbase, hlast, -⟩, hle, hpos, htotal⟩ := h
    have hstep := i.length_step
    have hnil : i.step.remaining = [] := by
      have hlen : (i.remaining.length : Int) = 0 := by rw [Input.remaining_eq_nil hsize]; rfl
      exact List.length_eq_zero_iff.mp (by omega)
    refine ⟨⟨f.setSize (s.endpos - f.base), ?_, hname, hbase, hlast, .inr ⟨?_, hnil⟩⟩, hle, hpos, ?_⟩
    · rw [Scanner.foundEOF, hfile]
      rfl
    · change s.endpos - f.base = s.endpos - base
      rw [hbase]
    · change s.endpos + _ = total
      omega

/-- Before the first call, no byte is taken. -/
theorem located_init (s : Scanner) (name : String) (base : Int) (i : Input) :
    Located name base (base + i.remaining.length) (s.init (some (.new name base))) i :=
  ⟨⟨.new name base, rfl, rfl, rfl, Int.le_refl _, .inl (Int.negSucc_lt_zero 0)⟩, Int.le_refl _,
    Int.le_refl _, rfl⟩

namespace ScanM

/-- A statement about the file stays true together with the position, as long as `Scan` does not
move it. -/
instance (I : Scanner → Input → Prop) [Stable I] (c : Int) : Stable fun s i => I s i ∧ s.pos = c where
  frame h hfile hpos hend := ⟨Stable.frame h.1 hfile hpos hend, hpos.trans h.2⟩
  position h := Stable.position h.1
  found h hsize := ⟨Stable.found h.1 hsize, h.2⟩
  invalid h hsize := ⟨Stable.invalid h.1 hsize, h.2⟩
  eof h hsize := ⟨Stable.eof h.1 hsize, h.2⟩

/-- At the beginning, a byte order mark is left out. -/
theorem skipSpaces_bof {s : Scanner} (h : s.ch = runeBOF) (i : Input) :
    skipSpaces.run s i = (do
      let ch ← next
      let ch ← if ch = runeBOM then next else pure ch
      skipLoop (i.remaining.length + 2) ch : ScanM Rune).run s i := by
  change (skipLoop (i.remaining.length + 3) s.ch).run s i = _
  rw [h]
  rfl

theorem scan_run (unicode : Unicode) {s : Scanner} (h : s.status ≠ .cached) (i : Input) :
    (scan unicode).run s i =
      (skipSpaces.run s i).bind fun x => (scanFrom unicode x.1).run x.2.1 x.2.2 := by
  rw [scan_eq]
  change (if s.status = .cached then _ else skipSpaces >>= scanFrom unicode).run s i = _
  rw [if_neg h]
  rfl

theorem scan_cached (unicode : Unicode) {s : Scanner} (h : s.status = .cached) (i : Input) :
    (scan unicode).run s i = some ((s.tok, s.lit), { s with status := .normal }, i) := by
  rw [scan_eq]
  change (if s.status = .cached then _ else skipSpaces >>= scanFrom unicode).run s i = _
  rw [if_pos h]
  rfl

/-- The position of what is scanned is the end position behind its first rune. -/
theorem scanFrom_located (unicode : Unicode) (ch : Rune) {name : String} {base total : Int} {s : Scanner}
    {i : Input} (hs : Located name base total s i) : ∃ r s' i',
      (scanFrom unicode ch).run s i = some (r, s', i') ∧ Located name base total s' i' ∧
        s'.pos = s.endpos := by
  have hm : Maintains (fun s' i' => Located name base total s' i' ∧ s'.pos = s.endpos)
      (if ch ≠ rune '\n' then do
        scanItem unicode
        endScan
      else endScan) := inferInstance
  have hstart : Located name base total { s with pos := s.endpos } i ∧
      { s with pos := s.endpos }.pos = s.endpos := ⟨hs.mark, rfl⟩
  obtain ⟨r, s', i', hrun, hs', hpos⟩ := hm.run hstart
  exact ⟨r, s', i', hrun, hs', hpos⟩

end ScanM

end OneJit.Go
