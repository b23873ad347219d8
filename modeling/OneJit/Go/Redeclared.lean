import OneJit.Go.Multiscope
import Mathlib.Data.List.Sublists

/-!
# Redeclared names

Which names clash does not depend on the order of the additions. `multiscope` notices a clash when
the second name is added, except for a declaration whose name another file has imported before.
-/

namespace OneJit.Go

/-! ## The names that are added -/

namespace Added

variable (isUpper : Char → Bool)

/-- The addition declares the name in the package block. -/
def declares (a : Added) (name : String) : Bool :=
  match a.what with
  | .decl _ n => n == name && n != "_"
  | _ => false

/-- The names that an addition imports into its file. The import of a package `main` is rejected. -/
def importedNames (a : Added) : List String :=
  match a.what with
  | .import name pkg =>
    if name = "_" ∨ name = "main" then []
    else if name ≠ "." then [name]
    else match pkg with
      | none => []
      | some pkg => (Multiscope.dotImported isUpper pkg).map (·.name)
  | _ => []

/-- The addition imports the name into its file. -/
def imports (a : Added) (name : String) : Bool := (a.importedNames isUpper).contains name

end Added

section

variable (isUpper : Char → Bool) (added : List Added)

/-- The name is declared twice in the package block, or imported twice in one file, or declared and
imported. -/
def Redeclared (name : String) : Prop :=
  2 ≤ added.countP (·.declares name) ∨
    (∃ file, 2 ≤ added.countP fun a => a.imports isUpper name && a.file == file) ∨
    0 < added.countP (·.declares name) ∧ 0 < added.countP (·.imports isUpper name)

/-- Two additions of the name, in this order, that clash otherwise than as an import and a
declaration of another file after it. -/
def ClashInTime (name : String) : Prop :=
  ∃ a b, [a, b].Sublist added ∧ (b.declares name ∨ b.imports isUpper name) ∧
    (a.declares name ∨ a.imports isUpper name ∧ a.file = b.file)

end

/-! ## What is in the maps after all additions -/

namespace Multiscope

variable {isUpper : Char → Bool}

theorem lookup_isSome {ms : Multiscope} {name : String} :
    (ms.lookup name).isSome ↔
      (ms.fileobjs ms.currfile).Has name ∨ ms.named.Has name := by
  rw [lookup, Option.isSome_or, Bool.or_eq_true, ObjectMap.lookup_isSome, ObjectMap.lookup_isSome]

/-- The maps and the current file stay, and an error is recorded where the name is found. -/
theorem checkRedefined_spec (ms : Multiscope) (name : String) (node : Node) :
    (ms.checkRedefined name node).named = ms.named ∧
    (ms.checkRedefined name node).fileobjs = ms.fileobjs ∧
    (ms.checkRedefined name node).currfile = ms.currfile ∧
    ((∃ e ∈ (ms.checkRedefined name node).errs, e.isRedefined) ↔
      (∃ e ∈ ms.errs, e.isRedefined) ∨
        (ms.fileobjs ms.currfile).Has name ∨ ms.named.Has name) := by
  unfold checkRedefined
  split
  · next h =>
    have hfound := lookup_isSome.mp h
    refine ⟨rfl, rfl, rfl, ?_⟩
    constructor
    · exact fun _ => .inr hfound
    · intro _
      exact ⟨.redefined name node, by simp, rfl⟩
  · next h =>
    have hfound : ¬((ms.fileobjs ms.currfile).Has name ∨ ms.named.Has name) :=
      fun hhas => h (lookup_isSome.mpr hhas)
    split <;> exact ⟨rfl, rfl, rfl, by simp only [hfound, or_false]⟩

/-- What an addition of names to the maps does. -/
structure Adds (ms ms' : Multiscope) (declared imported : String → Prop) : Prop where
  named : ∀ name, ms'.named.Has name ↔ ms.named.Has name ∨ declared name
  fileobjs : ∀ file name, (ms'.fileobjs file).Has name ↔
    (ms.fileobjs file).Has name ∨ file = ms.currfile ∧ imported name
  currfile : ms'.currfile = ms.currfile
  errs : (∃ e ∈ ms'.errs, e.isRedefined) ↔ (∃ e ∈ ms.errs, e.isRedefined) ∨
    ∃ name, (declared name ∨ imported name) ∧
      ((ms.fileobjs ms.currfile).Has name ∨ ms.named.Has name)

theorem Adds.nothing {ms ms' : Multiscope} (hnamed : ms'.named = ms.named)
    (hfile : ms'.fileobjs = ms.fileobjs) (hcurr : ms'.currfile = ms.currfile)
    (herrs : (∃ e ∈ ms'.errs, e.isRedefined) ↔ ∃ e ∈ ms.errs, e.isRedefined) :
    Adds ms ms' (fun _ => False) fun _ => False where
  named name := by rw [hnamed, or_false]
  fileobjs file name := by rw [hfile, and_false, or_false]
  currfile := hcurr
  errs := by simp only [herrs, or_self, false_and, exists_false, or_false]

theorem add_adds (ms : Multiscope) (node : Node) (cls : Class) (name : String) :
    Adds ms (ms.add node cls name) (fun n => n = name ∧ n ≠ "_") fun _ => False := by
  unfold add
  dsimp only
  split
  · next h =>
    rw [bne_iff_ne] at h
    obtain ⟨hnamed, hfile, hcurr, herrs⟩ := checkRedefined_spec ms name node
    refine ⟨fun n => ?_, fun file n => ?_, hcurr, ?_⟩
    · dsimp only
      rw [ObjectMap.has_insert, hnamed, or_comm]
      refine or_congr_right ⟨?_, fun hn => hn.1.symm⟩
      rintro rfl
      exact ⟨rfl, h⟩
    · dsimp only
      rw [hfile, and_false, or_false]
    · rw [herrs]
      refine or_congr_right ⟨fun hhas => ⟨name, .inl ⟨rfl, h⟩, hhas⟩, ?_⟩
      rintro ⟨n, ⟨rfl, -⟩ | hfalse, hhas⟩
      · exact hhas
      · exact hfalse.elim
  · next h =>
    have hname : name = "_" := by simpa using h
    have hnone : ∀ n, ¬(n = name ∧ n ≠ "_") := by
      rintro n ⟨rfl, hn⟩
      exact hn hname
    refine ⟨fun n => ?_, fun file n => ?_, rfl, ?_⟩
    · simp only [hnone n, or_false]
    · simp only [and_false, or_false]
    · simp only [hnone, or_false, false_and, exists_false]

theorem addToFile_adds (ms : Multiscope) (node : Node) (obj : Object) :
    Adds ms (ms.addToFile node obj) (fun _ => False) (· = obj.name) := by
  obtain ⟨hnamed, hfile, hcurr, herrs⟩ := checkRedefined_spec ms obj.name node
  refine ⟨fun n => ?_, fun file n => ?_, hcurr, ?_⟩
  · change (ms.checkRedefined obj.name node).named.Has n ↔ _
    rw [hnamed, or_false]
  · unfold addToFile
    dsimp only
    rw [hcurr, hfile]
    split
    · next h =>
      rw [ObjectMap.has_insert, or_comm]
      exact or_congr_right ⟨fun hn => ⟨h, hn.symm⟩, fun hn => hn.2.symm⟩
    · next h => simp only [h, false_and, or_false]
  · change (∃ e ∈ (ms.checkRedefined obj.name node).errs, e.isRedefined) ↔ _
    rw [herrs]
    simp only [false_or, exists_eq_left]

/-- Objects of different names are added one by one. -/
theorem addToFile_foldl (node : Node) (objs : List Object)
    (hobjs : objs.Pairwise fun a b => a.name ≠ b.name) (ms : Multiscope) :
    Adds ms (objs.foldl (fun ms obj => ms.addToFile node obj) ms) (fun _ => False)
      fun name => name ∈ objs.map (·.name) := by
  induction objs generalizing ms with
  | nil => exact ⟨by simp, by simp, rfl, by simp⟩
  | cons obj objs ih =>
    rw [List.pairwise_cons] at hobjs
    have hfirst := addToFile_adds ms node obj
    have hrest := ih hobjs.2 (ms.addToFile node obj)
    rw [List.foldl_cons]
    refine ⟨fun n => ?_, fun file n => ?_, hrest.currfile.trans hfirst.currfile, ?_⟩
    · rw [hrest.named, hfirst.named, or_false]
    · rw [hrest.fileobjs, hfirst.fileobjs, hfirst.currfile, List.map_cons, List.mem_cons]
      tauto
    · rw [hrest.errs, hfirst.errs, hfirst.currfile]
      simp only [hfirst.named, hfirst.fileobjs, List.map_cons, List.mem_cons, false_or, or_false,
        true_and, exists_eq_left]
      constructor
      · rintro ((h | h) | ⟨n, hn, (h | rfl) | h⟩)
        · exact .inl h
        · exact .inr ⟨obj.name, .inl rfl, h⟩
        · exact .inr ⟨n, .inr hn, .inl h⟩
        · obtain ⟨o, ho, heq⟩ := List.mem_map.mp hn
          exact absurd heq.symm (hobjs.1 o ho)
        · exact .inr ⟨n, .inr hn, .inr h⟩
      · rintro (h | ⟨n, rfl | hn, h⟩)
        · exact .inl (.inl h)
        · exact .inl (.inr h)
        · exact .inr ⟨n, hn, h.imp .inl id⟩

theorem dotImported_pairwise (pkg : Package) :
    (dotImported isUpper pkg).Pairwise fun a b => a.name ≠ b.name := by
  apply List.Pairwise.filter
  apply pkg.sorted.imp
  intro a b h heq
  rw [heq] at h
  exact String.lt_irrefl _ h

/-- The step declares and imports the names of the addition. -/
theorem step_adds (ms : Multiscope) (a : Added) :
    Adds { ms with currfile := a.file } (ms.step isUpper a) (fun name => a.declares name)
      fun name => a.imports isUpper name := by
  obtain ⟨file, node, what⟩ := a
  have hcongr : ∀ {ms' : Multiscope} {d d' i i' : String → Prop}, Adds { ms with currfile := file } ms' d i →
      (∀ n, d n ↔ d' n) → (∀ n, i n ↔ i' n) → Adds { ms with currfile := file } ms' d' i' := by
    intro ms' d d' i i' h hd hi
    obtain rfl : d = d' := funext fun n => propext (hd n)
    obtain rfl : i = i' := funext fun n => propext (hi n)
    exact h
  cases what with
  | decl cls name =>
    refine hcongr (add_adds _ node cls name) (fun n => ?_) fun n => by simp [Added.imports, Added.importedNames]
    simp only [Added.declares, Bool.and_eq_true, beq_iff_eq, bne_iff_ne]
    exact ⟨fun h => ⟨h.1.symm, h.1 ▸ h.2⟩, fun h => ⟨h.1.symm, h.1 ▸ h.2⟩⟩
  | initFunc hasSignature =>
    refine hcongr (Adds.nothing rfl rfl rfl ?_) (fun n => by simp [Added.declares])
      fun n => by simp [Added.imports, Added.importedNames]
    change (∃ e ∈ (if hasSignature then ms.errs ++ [.initFunc node] else ms.errs), _) ↔ _
    split
    · simp [ScopeError.isRedefined]
    · rfl
  | «import» name pkg =>
    have hdecl : ∀ n, False ↔ Added.declares ⟨file, node, .import name pkg⟩ n := by
      simp [Added.declares]
    change Adds _ (addImport isUpper { ms with currfile := file } node name pkg) _ _
    unfold addImport Added.imports Added.importedNames
    dsimp only
    by_cases hblank : name = "_"
    · rw [if_pos hblank, if_pos (.inl hblank)]
      exact hcongr (Adds.nothing rfl rfl rfl Iff.rfl) hdecl (by simp)
    rw [if_neg hblank]
    by_cases hmain : name = "main"
    · rw [if_pos hmain, if_pos (.inr hmain)]
      refine hcongr (Adds.nothing rfl rfl rfl ?_) hdecl (by simp)
      simp [ScopeError.isRedefined]
    rw [if_neg hmain, if_neg (not_or.mpr ⟨hblank, hmain⟩)]
    by_cases hdot : name ≠ "."
    · rw [if_pos hdot, if_pos hdot]
      exact hcongr (addToFile_adds _ node _) hdecl (by simp)
    rw [if_neg hdot, if_neg hdot]
    cases pkg with
    | none => exact hcongr (Adds.nothing rfl rfl rfl Iff.rfl) hdecl (by simp)
    | some pkg =>
      refine hcongr (addToFile_foldl node _ (dotImported_pairwise pkg) _) hdecl fun n => ?_
      rw [List.contains_iff_mem]

/-- What the maps hold and whether an error is recorded after all additions. -/
theorem addAll_spec (outer : String → Bool) (added : List Added) :
    let ms := addAll isUpper outer added
    (∀ name, ms.named.Has name ↔ ∃ a ∈ added, a.declares name) ∧
    (∀ file name, (ms.fileobjs file).Has name ↔
      ∃ a ∈ added, a.imports isUpper name ∧ a.file = file) ∧
    ((∃ e ∈ ms.errs, e.isRedefined) ↔ ∃ name, ClashInTime isUpper added name) := by
  induction added using List.reverseRecOn with
  | nil =>
    refine ⟨fun name => ?_, fun file name => ?_, ?_⟩
    · simp [addAll, init, ObjectMap.Has]
    · simp [addAll, init, ObjectMap.Has]
    · simp [addAll, init, ClashInTime]
  | append_singleton added a ih =>
    obtain ⟨hnamed, hfile, herrs⟩ := ih
    have hstep : addAll isUpper outer (added ++ [a]) =
        (addAll isUpper outer added).step isUpper a := by
      rw [addAll, List.foldl_append]
      rfl
    have hadds : Adds _ ((addAll isUpper outer added).step isUpper a) _ _ :=
      step_adds (addAll isUpper outer added) a
    dsimp only
    rw [hstep]
    refine ⟨fun name => ?_, fun file name => ?_, ?_⟩
    · rw [hadds.named, hnamed]
      simp [or_and_right, exists_or]
    · rw [hadds.fileobjs, hfile]
      simp only [List.mem_append, List.mem_singleton, or_and_right, exists_or, exists_eq_left]
      exact or_congr_right ⟨fun h => ⟨h.2, h.1.symm⟩, fun h => ⟨h.2.symm, h.1⟩⟩
    · rw [hadds.errs, herrs]
      dsimp only
      simp only [hnamed, hfile]
      constructor
      · rintro (⟨name, b, d, hsub, hclash⟩ | ⟨name, hadd, ⟨b, hb, himp, hsame⟩ | ⟨b, hb, hdecl⟩⟩)
        · exact ⟨name, b, d, hsub.trans (List.sublist_append_left _ _), hclash⟩
        · exact ⟨name, b, a, (List.singleton_sublist.mpr hb).append (.refl [a]), hadd,
            .inr ⟨himp, hsame⟩⟩
        · exact ⟨name, b, a, (List.singleton_sublist.mpr hb).append (.refl [a]), hadd, .inl hdecl⟩
      · rintro ⟨name, b, d, hsub, hadd, hclash⟩
        obtain ⟨l₁, l₂, hl, hl₁, hl₂⟩ := List.sublist_append_iff.mp hsub
        cases l₂ with
        | nil =>
          rw [List.append_nil] at hl
          exact .inl ⟨name, b, d, hl ▸ hl₁, hadd, hclash⟩
        | cons x xs =>
          obtain ⟨rfl, rfl⟩ : x = a ∧ xs = [] := by
            have hlen := hl₂.length_le
            have hmem := hl₂.subset List.mem_cons_self
            rw [List.mem_singleton] at hmem
            rw [List.length_cons, List.length_singleton] at hlen
            exact ⟨hmem, List.eq_nil_of_length_eq_zero (by omega)⟩
          obtain ⟨rfl, rfl⟩ : l₁ = [b] ∧ x = d := by
            have hinit := congrArg List.dropLast hl
            have hlast := congrArg List.getLast? hl
            simp at hinit hlast
            exact ⟨hinit.symm, hlast.symm⟩
          have hb := List.singleton_sublist.mp hl₁
          refine .inr ⟨name, hadd, ?_⟩
          obtain hdecl | ⟨himp, hsame⟩ := hclash
          · exact .inr ⟨b, hb, hdecl⟩
          · exact .inl ⟨b, hb, himp, hsame⟩

end Multiscope

/-! ## The order that is missed -/

/-- Two of the additions are counted. -/
theorem two_le_countP {α : Type} {p : α → Bool} {xs : List α} :
    2 ≤ xs.countP p ↔ ∃ a b, [a, b].Sublist xs ∧ p a ∧ p b := by
  rw [List.countP_eq_length_filter]
  constructor
  · intro h
    match hfilter : xs.filter p, h with
    | a :: b :: rest, _ =>
      have hsub : [a, b].Sublist (xs.filter p) := by
        rw [hfilter]
        exact List.sublist_append_left [a, b] rest
      have ha : a ∈ xs.filter p := hsub.subset (by simp)
      have hb : b ∈ xs.filter p := hsub.subset (by simp)
      exact ⟨a, b, hsub.trans List.filter_sublist, (List.mem_filter.mp ha).2,
        (List.mem_filter.mp hb).2⟩
  · rintro ⟨a, b, hsub, ha, hb⟩
    have hfilter := (hsub.filter p).length_le
    simpa [ha, hb] using hfilter

theorem redeclared_of_clashInTime {isUpper : Char → Bool} {added : List Added} {name : String}
    (h : ClashInTime isUpper added name) : Redeclared isUpper added name := by
  obtain ⟨a, b, hsub, hb, ha⟩ := h
  have hmem : a ∈ added ∧ b ∈ added := ⟨hsub.subset (by simp), hsub.subset (by simp)⟩
  obtain ha | ⟨ha, hfile⟩ := ha
  · obtain hb | hb := hb
    · exact .inl (two_le_countP.mpr ⟨a, b, hsub, ha, hb⟩)
    · exact .inr (.inr ⟨List.countP_pos_iff.mpr ⟨a, hmem.1, ha⟩,
        List.countP_pos_iff.mpr ⟨b, hmem.2, hb⟩⟩)
  · obtain hb | hb := hb
    · exact .inr (.inr ⟨List.countP_pos_iff.mpr ⟨b, hmem.2, hb⟩,
        List.countP_pos_iff.mpr ⟨a, hmem.1, ha⟩⟩)
    · exact .inr (.inl ⟨b.file, two_le_countP.mpr ⟨a, b, hsub, by simp [ha, hfile], by simp [hb]⟩⟩)

/-- The clashes of a name are only those of an import with a declaration of another file after it. -/
def OnlyLate (isUpper : Char → Bool) (added : List Added) (name : String) : Prop :=
  added.Pairwise fun a b => (b.declares name ∨ b.imports isUpper name) →
    a.declares name = false ∧ (a.imports isUpper name → b.declares name → a.file ≠ b.file) ∧
      (a.imports isUpper name → b.imports isUpper name → a.file ≠ b.file)

theorem onlyLate_iff {isUpper : Char → Bool} {added : List Added} {name : String} :
    OnlyLate isUpper added name ↔ ¬ClashInTime isUpper added name := by
  rw [OnlyLate, List.pairwise_iff_forall_sublist]
  constructor
  · rintro h ⟨a, b, hsub, hb, ha⟩
    obtain ⟨hdecl, hd, hi⟩ := h hsub hb
    obtain ha | ⟨ha, hfile⟩ := ha
    · rw [hdecl] at ha
      cases ha
    · obtain hb | hb := hb
      · exact hd ha hb hfile
      · exact hi ha hb hfile
  · intro h a b hsub hb
    refine ⟨?_, fun ha _ hfile => h ⟨a, b, hsub, hb, .inr ⟨ha, hfile⟩⟩,
      fun ha _ hfile => h ⟨a, b, hsub, hb, .inr ⟨ha, hfile⟩⟩⟩
    by_contra hdecl
    exact h ⟨a, b, hsub, hb, .inl (by simpa using hdecl)⟩

/-- The blank name is never in a block. -/
theorem not_redeclared_blank {isUpper : Char → Bool} {added : List Added} :
    ¬Redeclared isUpper added "_" := by
  have hdecl : ∀ a : Added, a.declares "_" = false := by
    rintro ⟨file, node, _ | _ | _⟩ <;> simp [Added.declares]
  have himp : ∀ a : Added, a.imports isUpper "_" = false := by
    rintro ⟨file, node, _ | _ | ⟨name, pkg⟩⟩
    · simp [Added.imports, Added.importedNames]
    · simp [Added.imports, Added.importedNames]
    · unfold Added.imports Added.importedNames
      dsimp only
      split
      · rfl
      · next hname =>
        split
        · next hdot =>
          have hne : name ≠ "_" := fun h => hname (.inl h)
          simp [hne.symm]
        · cases pkg with
          | none => rfl
          | some pkg =>
            -- an exported name starts with an upper case letter
            rw [Bool.eq_false_iff, ne_eq, List.contains_iff_mem, List.mem_map]
            rintro ⟨obj, hobj, heq⟩
            have hexp := (List.mem_filter.mp hobj).2
            rw [heq] at hexp
            have hnot : isExported isUpper "_" = false := by
              unfold isExported
              rfl
            rw [hnot, Bool.false_and] at hexp
            cases hexp
  simp [Redeclared, hdecl, himp]

/-- The errors are those of the claimed names when an order that is missed is not the only clash,
and when the name `init`, which is a name like the others here, does not clash alone. -/
theorem addAll_isRedefined_iff (isUpper : Char → Bool) (outer : String → Bool)
    (added : List Added) :
    ((∃ e ∈ (Multiscope.addAll isUpper outer added).errs, e.isRedefined) ↔
        ∃ name, name ≠ "_" ∧ name ≠ "init" ∧ Redeclared isUpper added name) ↔
      ((∃ name, name ≠ "_" ∧ name ≠ "init" ∧ Redeclared isUpper added name) →
        ∃ name, ¬OnlyLate isUpper added name) ∧
      (¬OnlyLate isUpper added "init" →
        ∃ name, name ≠ "_" ∧ name ≠ "init" ∧ Redeclared isUpper added name) := by
  have herrs : (∃ e ∈ (Multiscope.addAll isUpper outer added).errs, e.isRedefined) ↔
      ∃ name, ¬OnlyLate isUpper added name := by
    rw [(Multiscope.addAll_spec outer added).2.2]
    simp only [onlyLate_iff, not_not]
  rw [herrs]
  constructor
  · intro h
    exact ⟨h.mpr, fun hinit => h.mp ⟨"init", hinit⟩⟩
  · rintro ⟨hmissed, hinit⟩
    refine ⟨?_, hmissed⟩
    rintro ⟨name, hname⟩
    by_cases heq : name = "init"
    · exact hinit (heq ▸ hname)
    · have hre := redeclared_of_clashInTime (not_not.mp (onlyLate_iff.not.mp hname))
      refine ⟨name, ?_, heq, hre⟩
      rintro rfl
      exact not_redeclared_blank hre

/-- The first file imports `fmt`, the second one declares a function of that name. -/
theorem addAll_import_then_declare :
    ¬∀ added : List Added,
      (∃ e ∈ (Multiscope.addAll (fun _ => false) (fun _ => false) added).errs, e.isRedefined) ↔
        ∃ name, name ≠ "_" ∧ name ≠ "init" ∧ Redeclared (fun _ => false) added name := by
  intro h
  obtain ⟨e, he, -⟩ := (h [⟨0, 1, .import "fmt" none⟩, ⟨1, 2, .decl .funcObj "fmt"⟩]).mpr
    ⟨"fmt", by decide, by decide, .inr (.inr ⟨by decide, by decide⟩)⟩
  rw [show (Multiscope.addAll _ _ _).errs = [] by decide] at he
  cases he

end OneJit.Go
