import OneJit.Mir.Operands

/-!
# Casts of integers

`mir_cast` extends the bits that the two kinds have in common by the signedness of the target, where
`Value::cast` has the source decide. A cast to `Bool` keeps a byte, and there is no unsigned
conversion to a floating point kind.
-/

namespace OneJit.Mir

open OneJit.Compiler (firstId)

/-- A cast of `a`, which has kind `kx`, to `k` agrees with the one of constants: what becomes a
`Bool` is zero or one in its low byte, and what grows to a kind of the other signedness has its top
bit clear. -/
structure CastExact (k kx : Kind) (a : BitVec 64) : Prop where
  bool : k = .bool → a.toNat % 256 ≤ 1
  sign : kx ≠ .bool → kx.bitsize < k.bitsize → kx.isSigned ≠ k.isSigned →
    a.getLsbD (kx.bitsize - 1) = false

namespace Compiler

theorem isSigned_eq {k : Kind} (h : k.isScalar) : k.isSigned = decide (k.group = .gInt) := by
  revert h
  apply Kind.scalar_cases <;> decide

theorem eq_bool_iff {k : Kind} (h : k.isScalar) : k = .bool ↔ k.bitsize < 8 := by
  revert h
  apply Kind.scalar_cases <;> decide

/-- The instruction that is selected. -/
theorem mirCast_eq {k kx : Kind} (hk : k.isScalar) (hkx : kx.isScalar) :
    mirCast k kx =
      if min kx.bitsize k.bitsize = 64 then .mov .l
      else .ext k.isSigned (max (min kx.bitsize k.bitsize) 8) := by
  revert hk hkx
  apply Kind.scalar_cases <;> (apply Kind.scalar_cases <;> decide)

theorem cast_bits {k kx : Kind} (hk : k.isScalar) (hkx : kx.isScalar) {a : BitVec 64}
    (ha : kx.wrap a = a) : ((⟨a, kx⟩ : Value).cast k).bits = k.wrap a := by
  by_cases hsame : kx = k
  · rw [Value.cast, if_pos hsame, ← hsame, ha]
  · rw [Value.cast_eq hkx hk hsame]

/-- The bits in common, extended by the sign of the target. -/
theorem resize_eq_wrap_iff {k kx : Kind} (hk : k.isScalar) (hkx : kx.isScalar) {a : BitVec 64}
    (ha : kx.wrap a = a) (hmin : min kx.bitsize k.bitsize ≠ 64) :
    resize k.isSigned (max (min kx.bitsize k.bitsize) 8) a = k.wrap a ↔ CastExact k kx a := by
  have hpos := Kind.bitsize_pos hk
  have hposx := Kind.bitsize_pos hkx
  have hle := Kind.bitsize_le hk
  rw [wrap_eq_resize, ← isSigned_eq hk]
  rw [wrap_eq_resize, ← isSigned_eq hkx] at ha
  by_cases hkb : k = .bool
  · -- a byte is kept, and its low bit is wanted
    subst hkb
    have hone : Kind.bool.bitsize = 1 := rfl
    have hbyte : max (min kx.bitsize Kind.bool.bitsize) 8 = 8 := by omega
    rw [hbyte, hone]
    change resize false 8 a = resize false 1 a ↔ _
    rw [← BitVec.toNat_inj, toNat_resize_false (by decide), toNat_resize_false (by decide)]
    constructor
    · intro heq
      refine ⟨fun _ => ?_, fun _ hlt => ?_⟩
      · omega
      · omega
    · intro h
      have hle := h.bool rfl
      omega
  · have hk8 : 8 ≤ k.bitsize := Nat.not_lt.mp ((eq_bool_iff hk).not.mp hkb)
    by_cases hkxb : kx = .bool
    · -- zero and one are the same in every kind
      subst hkxb
      have hlt : a.toNat < 2 := by
        rw [← ha]
        change (resize false 1 a).toNat < 2
        rw [toNat_resize_false (by decide)]
        exact Nat.mod_lt _ (by decide)
      have hpow : ∀ n, 8 ≤ n → a.toNat < 2 ^ (n - 1) := by
        intro n hn
        have hle : 2 ^ 1 ≤ 2 ^ (n - 1) := Nat.pow_le_pow_right (by decide) (by omega)
        omega
      rw [resize_of_lt (by omega) (hpow _ (Nat.le_max_right _ _)), resize_of_lt hpos (hpow _ hk8)]
      exact iff_of_true rfl ⟨fun h => absurd h hkb, fun h => absurd rfl h⟩
    · have hx8 : 8 ≤ kx.bitsize := Nat.not_lt.mp ((eq_bool_iff hkx).not.mp hkxb)
      obtain hlt | hge := Nat.lt_or_ge kx.bitsize k.bitsize
      · have hm : max (min kx.bitsize k.bitsize) 8 = kx.bitsize := by omega
        have hiff := resize_widen_iff hposx hlt hle k.isSigned kx.isSigned a
        rw [ha] at hiff
        rw [hm, hiff]
        constructor
        · intro h
          exact ⟨fun h => absurd h hkb, fun _ _ hne => h.resolve_left (Ne.symm hne)⟩
        · intro h
          by_cases hsame : kx.isSigned = k.isSigned
          · exact .inl hsame.symm
          · exact .inr (h.sign hkxb hlt hsame)
      · have hm : max (min kx.bitsize k.bitsize) 8 = k.bitsize := by omega
        rw [hm]
        refine iff_of_true rfl ⟨fun h => absurd h hkb, fun _ hlt => ?_⟩
        omega

/-- What the instruction makes of a register that holds a value. -/
theorem mirCast_apply {k kx : Kind} (hk : k.isScalar) (hkx : kx.isScalar) {a r : BitVec 64}
    (ha : kx.wrap a = a) (hr : Holds kx a r) (upper : BitVec 32) :
    ∃ v, (mirCast k kx).apply upper r = some v ∧ (v = k.wrap a ↔ CastExact k kx a) ∧
      Operand.extend k v = v := by
  have hle := Kind.bitsize_le hk
  have hlex := Kind.bitsize_le hkx
  have hbytes := (Operand.bytes_le hk).1
  rw [mirCast_eq hk hkx]
  by_cases hmin : min kx.bitsize k.bitsize = 64
  · have hx64 : kx.bitsize = 64 := by omega
    have hk64 : k.bitsize = 64 := by omega
    have hkb : k ≠ .bool := by
      intro h
      rw [h] at hk64
      cases hk64
    have hr64 : r = a := by
      rw [Holds, if_pos hx64] at hr
      exact hr
    have h8 : 8 * k.bytes = 64 := by
      rw [Kind.bytes, hk64]
    rw [if_pos hmin, hr64]
    refine ⟨a, rfl, iff_of_true ?_ ⟨fun h => absurd h hkb, fun _ hlt => ?_⟩, ?_⟩
    · rw [wrap_eq_resize, hk64]
      exact (resize_full _ a).symm
    · omega
    · rw [Operand.extend, h8]
      exact resize_full _ a
  · have hm : max (min kx.bitsize k.bitsize) 8 ≤ 32 := by
      by_cases hx64 : kx.bitsize = 64
      · have hk32 := bitsize_le_32 hk (by omega)
        omega
      · have hx32 := bitsize_le_32 hkx hx64
        omega
    have hlow : resize k.isSigned (max (min kx.bitsize k.bitsize) 8) r =
        resize k.isSigned (max (min kx.bitsize k.bitsize) 8) a := by
      apply resize_congr
      have htrunc := congrArg (BitVec.setWidth (max (min kx.bitsize k.bitsize) 8)) hr.low
      rw [low, low, BitVec.setWidth_setWidth_of_le _ hm, BitVec.setWidth_setWidth_of_le _ hm] at htrunc
      exact htrunc
    rw [if_neg hmin]
    refine ⟨_, rfl, ?_, ?_⟩
    · rw [hlow]
      exact resize_eq_wrap_iff hk hkx ha hmin
    · have hpos := Kind.bitsize_pos hk
      have hbytes8 := (Operand.bytes_le hk).2
      rw [Operand.extend, ← isSigned_eq hk]
      exact resize_widen (by omega) (by omega) (by omega) _ _

/-- What is emitted for a cast. -/
theorem simplify_cast (k : Kind) (x : Expr) (p : Place) (mask : Mask) (optDst : Expr) (c : Compiler) :
    simplify (.unary k .cast x p) mask optDst c =
      let x' := simplify x (.beside optDst) .none c
      let dst := dstOr optDst k x'.2
      (dst.1, { dst.2 with
        nodes := dst.2.nodes ++ [Insn.insn2 (mirCast k x'.1.kind) dst.1 x'.1] }) := by
  rw [simplify, simplifyWith]
  rfl

/-- The emitted instructions run, and leave the value of `Value::cast` exactly under the condition. -/
theorem cast_emitted {k kx : Kind} (hk : k.isScalar) (hkx : kx.isScalar) {a : BitVec 64}
    (ha : kx.wrap a = a) {x optDst : Expr} (p : Place) (mask : Mask) {c : Compiler} {ρ : Valuation}
    {r : Needs} (hx : Lowers c.bound ρ r (simplify x · .none) (Contains kx (Holds kx a)))
    (hdst : optDst = .none ∨ Operand.IsPlace c.bound k optDst) (hfits : (r.add oneVar).Fits c)
    (upper : Nat → BitVec 32) :
    ∃ s v, run (emitted (simplify (.unary k .cast x p) mask optDst) c) ⟨ρ, upper⟩ = some s ∧
      Operand.read s.regs (simplify (.unary k .cast x p) mask optDst { c with nodes := [] }).1 =
        some v ∧ (v = k.wrap a ↔ CastExact k kx a) := by
  rw [emitted, simplify_cast]
  dsimp only
  generalize hc : ({ c with nodes := [] } : Compiler) = c₀
  have hbound : c₀.bound = c.bound := by
    rw [← hc]
    rfl
  have hfits₀ : (r.add oneVar).Fits c₀ := hc ▸ hfits.clear
  obtain ⟨s, hreach, hbelow, hkind, v, hread, hholds⟩ := hx (.beside optDst) c₀ ⟨ρ, upper⟩ ⟨ρ, upper⟩
    (beside_const optDst) hbound.ge hfits₀.left (.refl _ _) (by rw [← hc]; rfl)
  dsimp only at hreach hbelow hkind hread
  generalize simplify x (.beside optDst) .none c₀ = x' at *
  obtain ⟨hreach', hplace, hnodes⟩ := dstOr_place hk hdst (hbound.ge.trans hreach.made.vars_le)
    (hfits₀.right hreach.made) hreach.run
  generalize dstOr optDst k x'.2 = dst at *
  obtain ⟨w, happly, hw, hextend⟩ := mirCast_apply hk hkx ha hholds (s.upper 0)
  obtain ⟨s', u, hput, hread', hu⟩ := Operand.put_place hk hplace s w
  refine ⟨s', u, ?_, hread', ?_⟩
  · rw [hnodes, run_append hreach.run, hkind, run_insn2 hread, happly]
    exact hput
  · rwa [show u = w by rw [hextend] at hu; exact hu.elim id id]

/-- A cast to a kind that is no floating point one leaves what `Value::cast` gives exactly under the
condition, and for a cast to a floating point kind no unsigned conversion is selected. -/
theorem simplify_cast_iff {k kx : Kind} (hk : k.isScalar) (hkx : kx.isScalar) {a : BitVec 64}
    (ha : kx.wrap a = a) {x optDst : Expr} (p : Place) (mask : Mask) {c : Compiler} {ρ : Valuation}
    {r : Needs} (hx : Lowers c.bound ρ r (simplify x · .none) (Contains kx (Holds kx a)))
    (hdst : optDst = .none ∨ Operand.IsPlace c.bound k optDst) (hfits : (r.add oneVar).Fits c) :
    (Computes (simplify (.unary k .cast x p) mask optDst) c ρ
        (· = ((⟨a, kx⟩ : Value).cast k).bits) ↔ CastExact k kx a) ∧
      ∀ fk fc, kx.isUnsigned → floatClass fk = some fc → mirCast fk kx ≠ .uconvert fc := by
  constructor
  · rw [cast_bits hk hkx ha]
    have hemitted := cast_emitted hk hkx ha p mask hx hdst hfits
    constructor
    · intro h
      obtain ⟨s, v, hrun, hread, hv⟩ := hemitted fun _ => 0
      obtain ⟨s', v', hrun', hread', hv'⟩ := h fun _ => 0
      rw [hrun] at hrun'
      cases hrun'
      rw [hread] at hread'
      cases hread'
      exact hv.mp hv'
    · intro h upper
      obtain ⟨s, v, hrun, hread, hv⟩ := hemitted upper
      exact ⟨s, v, hrun, hread, hv.mpr h⟩
  · intro fk fc _ hf
    have hint : floatClass kx = none := by
      revert hkx
      apply Kind.scalar_cases <;> decide
    rw [mirCast, hint, hf]
    exact nofun

/-- All registers hold the same number. -/
def sameRegs (v : BitVec 64) : Valuation := ⟨fun _ _ => v, fun _ => 0, fun _ => 0, fun _ _ => 0⟩

/-- A function with one variable. -/
def oneVarOf (k : Kind) : Compiler := ⟨[k], 0, [], []⟩

/-- A variable with a value in the form of its kind. -/
theorem oneVar_lowers {k : Kind} (hk : k.isScalar) (a : BitVec 64) :
    Lowers (oneVarOf k).bound (sameRegs a) .none (simplify (.var k firstId) · .none)
      (Contains k (Holds k a)) := by
  apply var_lowers
  · intro h
    rw [h] at hk
    cases hk
  · exact Nat.lt_add_of_pos_left Nat.one_pos
  · exact Holds.self k a

theorem oneVar_fits (k : Kind) : (Needs.none.add oneVar).Fits (oneVarOf k) :=
  ⟨(by decide : 0x1002 ≤ 2 ^ 24), (by decide : 0 ≤ 0x10000)⟩

theorem simplify_cast_iff_int32 :
    Computes (simplify (.unary .int64 .cast (.var .int32 firstId) .fresh) .toAny .none)
      (oneVarOf .int32) (sameRegs (-1)) (· = ((⟨-1, .int32⟩ : Value).cast .int64).bits) :=
  (simplify_cast_iff rfl rfl (by decide) .fresh .toAny (oneVar_lowers rfl (-1)) (.inl rfl)
    (oneVar_fits .int32)).1.mpr ⟨nofun, fun _ _ h => absurd rfl h⟩

/-- The greatest `uint32` becomes minus one as an `int64`. -/
theorem not_cast_uint32 :
    ¬Computes (simplify (.unary .int64 .cast (.var .uint32 firstId) .fresh) .toAny .none)
      (oneVarOf .uint32) (sameRegs 0xFFFFFFFF)
      (· = ((⟨0xFFFFFFFF, .uint32⟩ : Value).cast .int64).bits) := by
  intro h
  obtain ⟨s, v, hrun, hread, hv⟩ := @cast_emitted .int64 .uint32 rfl rfl 0xFFFFFFFF (by decide) _
    .none .fresh .toAny _ _ _ (oneVar_lowers rfl 0xFFFFFFFF) (.inl rfl) (oneVar_fits .uint32)
    fun _ => 0
  obtain ⟨s', v', hrun', hread', hv'⟩ := h fun _ => 0
  rw [hrun] at hrun'
  cases hrun'
  rw [hread] at hread'
  cases hread'
  have hexact := hv.mp (hv'.trans (cast_bits rfl rfl (by decide)))
  have hsign := hexact.sign (by decide) (by decide) (by decide)
  exact absurd hsign (by decide)

end Compiler

end OneJit.Mir
