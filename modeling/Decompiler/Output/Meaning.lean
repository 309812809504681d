import Mathlib.Tactic.NormNum
import Decompiler.Ir.Semantics
import Decompiler.Output.Translation

/-! # Meaning of the printed statements

Registers and temporaries as variables of their unsigned types. A printed statement then
computes in C what its operation computes: the conversions that C applies to the operands
keep their values, and no signed result overflows.
-/

namespace Decompiler.Output

open CLanguage

def sizes : List ℕ := [1, 2, 4, 8]

section Conversions

variable {s : ℕ} {t : IntType} {x y : IntType × ℤ}

/-- The type and value of an operand of `s` bytes: that of a variable, or of a literal. -/
inductive IsOperand (s : ℕ) : IntType × ℤ → Prop
  | named {n : ℕ} (lt : n < 2 ^ (8 * s)) : IsOperand s (.unsigned s, n)
  | literal {n : ℕ} (lt : n < 2 ^ (8 * s)) : IsOperand s (.ofLiteral n, n)

theorem IsOperand.range (h : IsOperand s x) : 0 ≤ x.2 ∧ x.2 < 2 ^ (8 * s) := by
  cases h with
  | @named n lt | @literal n lt =>
    refine ⟨Int.natCast_nonneg n, ?_⟩
    dsimp only
    exact_mod_cast lt

structure Computes (s : ℕ) (t : IntType) : Prop where
  convert : ∀ n : ℤ, 0 ≤ n → n < 2 ^ (8 * s) → t.convert n = n
  /-- Sums and differences are defined, and right modulo the size. -/
  result : ∀ n : ℤ, -2 ^ (8 * s) < n → n < 2 * 2 ^ (8 * s) →
    ∃ m, t.result n = some m ∧ m % 2 ^ (8 * s) = n % 2 ^ (8 * s)

theorem computes_unsigned : Computes s (.unsigned s) where
  convert _ h0 hn := Int.emod_eq_of_lt h0 hn
  result _ _ _ := ⟨_, rfl, Int.emod_emod_of_dvd _ (dvd_refl _)⟩

theorem computes_signed {b : ℕ} (h : 8 * s + 2 ≤ 8 * b) : Computes s ⟨b, true⟩ := by
  have hpow : (2 : ℤ) ^ (8 * b) = 2 ^ (8 * b - (8 * s + 2)) * (4 * 2 ^ (8 * s)) := by
    rw [show (4 : ℤ) = 2 ^ 2 from rfl, ← pow_add, ← pow_add]
    congr 1
    omega
  have hone : (1 : ℤ) ≤ 2 ^ (8 * b - (8 * s + 2)) := one_le_pow₀ (by norm_num)
  have hle : 4 * (2 : ℤ) ^ (8 * s) ≤ 2 ^ (8 * b) := by
    rw [hpow]
    exact le_mul_of_one_le_left (by positivity) hone
  have hconvert : ∀ n : ℤ, -2 ^ (8 * s) < n → n < 2 * 2 ^ (8 * s) →
      IntType.convert ⟨b, true⟩ n = n := by
    intro n hlow hhigh
    have hcast : ((2 ^ (8 * b) : ℕ) : ℤ) = 2 ^ (8 * b) := by push_cast; rfl
    refine Int.bmod_eq_of_le ?_ ?_ <;> rw [hcast] <;> omega
  constructor
  · intro n h0 hn
    have hpos : (0 : ℤ) < 2 ^ (8 * s) := by positivity
    exact hconvert n (by omega) (by omega)
  · intro n hlow hhigh
    refine ⟨n, ?_, rfl⟩
    rw [IntType.result, if_pos rfl, if_pos (hconvert n hlow hhigh)]

theorem IsOperand.type_cases (h : IsOperand s x) :
    x.1 = .unsigned s ∨ x.1 = .int ∨ x.1 = .long ∧ 4 ≤ s ∨ x.1 = .unsigned 8 ∧ 8 ≤ s := by
  cases h with
  | named => exact .inl rfl
  | @literal n lt =>
    have hlarge : ∀ k, 2 ^ (8 * k - 1) ≤ n → k ≤ s := by
      intro k hk
      by_contra hlt
      have hle : 2 ^ (8 * s) ≤ 2 ^ (8 * k - 1) := Nat.pow_le_pow_right (by decide) (by omega)
      omega
    simp only [IntType.ofLiteral]
    split_ifs with hint hlong
    · exact .inr (.inl rfl)
    · exact .inr (.inr (.inl ⟨rfl, hlarge 4 (by omega)⟩))
    · exact .inr (.inr (.inr ⟨rfl, hlarge 8 (by omega)⟩))

theorem common_comm (t u : IntType) : t.common u = u.common t := by
  unfold IntType.common
  split_ifs with h₁ h₂ h₂
  · omega
  · rfl
  · rfl
  · have hbytes : t.promote.bytes = u.promote.bytes := by omega
    rw [hbytes, Bool.and_comm]

theorem computes_common (hs : s ∈ sizes) (h : IsOperand s x) :
    Computes s ((IntType.unsigned s).common x.1) := by
  simp only [sizes, List.mem_cons, List.not_mem_nil, or_false] at hs
  rcases hs with rfl | rfl | rfl | rfl
  · rcases h.type_cases with h | h | ⟨-, h⟩ | ⟨-, h⟩
    · rw [h]
      exact computes_signed (b := 4) (by decide)
    · rw [h]
      exact computes_signed (b := 4) (by decide)
    · omega
    · omega
  · rcases h.type_cases with h | h | ⟨-, h⟩ | ⟨-, h⟩
    · rw [h]
      exact computes_signed (b := 4) (by decide)
    · rw [h]
      exact computes_signed (b := 4) (by decide)
    · omega
    · omega
  · rcases h.type_cases with h | h | ⟨h, -⟩ | ⟨-, h⟩
    · rw [h]
      exact computes_unsigned
    · rw [h]
      exact computes_unsigned
    · rw [h]
      exact computes_signed (b := 8) (by decide)
    · omega
  · rcases h.type_cases with h | h | ⟨h, -⟩ | ⟨h, -⟩ <;> rw [h] <;> exact computes_unsigned

theorem Computes.of_variable (hs : s ∈ sizes) (hx : IsOperand s x) (hy : IsOperand s y)
    (h : x.1 = .unsigned s ∨ y.1 = .unsigned s) : Computes s (x.1.common y.1) := by
  rcases h with h | h
  · rw [h]
    exact computes_common hs hy
  · rw [h, common_comm]
    exact computes_common hs hx

section Apply

variable (ht : Computes s t) (hx : IsOperand s x) (hy : IsOperand s y)

include ht hx hy

theorem apply_add : ∃ z, BinaryOp.add.apply t (t.convert x.2) (t.convert y.2) = some z ∧
    z.2 % 2 ^ (8 * s) = (x.2 + y.2) % 2 ^ (8 * s) := by
  obtain ⟨hx0, hxs⟩ := hx.range
  obtain ⟨hy0, hys⟩ := hy.range
  obtain ⟨m, hm, hmod⟩ := ht.result (x.2 + y.2) (by omega) (by omega)
  refine ⟨(t, m), ?_, hmod⟩
  rw [BinaryOp.apply, ht.convert _ hx0 hxs, ht.convert _ hy0 hys, hm]
  rfl

theorem apply_sub : ∃ z, BinaryOp.sub.apply t (t.convert x.2) (t.convert y.2) = some z ∧
    z.2 % 2 ^ (8 * s) = (x.2 - y.2) % 2 ^ (8 * s) := by
  obtain ⟨hx0, hxs⟩ := hx.range
  obtain ⟨hy0, hys⟩ := hy.range
  obtain ⟨m, hm, hmod⟩ := ht.result (x.2 - y.2) (by omega) (by omega)
  refine ⟨(t, m), ?_, hmod⟩
  rw [BinaryOp.apply, ht.convert _ hx0 hxs, ht.convert _ hy0 hys, hm]
  rfl

theorem apply_eq : BinaryOp.eq.apply t (t.convert x.2) (t.convert y.2) =
    some (.int, if x.2 = y.2 then 1 else 0) := by
  obtain ⟨hx0, hxs⟩ := hx.range
  obtain ⟨hy0, hys⟩ := hy.range
  rw [BinaryOp.apply, ht.convert _ hx0 hxs, ht.convert _ hy0 hys]

theorem apply_ne : BinaryOp.ne.apply t (t.convert x.2) (t.convert y.2) =
    some (.int, if x.2 ≠ y.2 then 1 else 0) := by
  obtain ⟨hx0, hxs⟩ := hx.range
  obtain ⟨hy0, hys⟩ := hy.range
  rw [BinaryOp.apply, ht.convert _ hx0 hxs, ht.convert _ hy0 hys]

end Apply

theorem bmod_bmod_of_le {m k : ℕ} (hm : 0 < m) (h : m ≤ k) (n : ℤ) :
    (n.bmod m).bmod k = n.bmod m := by
  have hlow := Int.le_bmod (x := n) hm
  have hhigh := Int.bmod_lt (x := n) hm
  exact Int.bmod_eq_of_le (by omega) (by omega)

theorem convert_common_signed (hs : s ∈ sizes) (n : ℤ) :
    (IntType.common ⟨s, true⟩ ⟨s, true⟩).convert (IntType.convert ⟨s, true⟩ n) =
      IntType.convert ⟨s, true⟩ n := by
  have hcommon : ∃ b, IntType.common ⟨s, true⟩ ⟨s, true⟩ = ⟨b, true⟩ ∧ s ≤ b := by
    simp only [sizes, List.mem_cons, List.not_mem_nil, or_false] at hs
    rcases hs with rfl | rfl | rfl | rfl
    · exact ⟨4, rfl, by decide⟩
    · exact ⟨4, rfl, by decide⟩
    · exact ⟨4, rfl, by decide⟩
    · exact ⟨8, rfl, by decide⟩
  obtain ⟨b, hb, hle⟩ := hcommon
  rw [hb]
  exact bmod_bmod_of_le (Nat.two_pow_pos _)
    (Nat.pow_le_pow_right (by decide) (Nat.mul_le_mul_left 8 hle)) n

theorem toNat_convert_unsigned {b n : ℕ} (h : n < 2 ^ (8 * b)) :
    ((IntType.unsigned b).convert n).toNat = n := by
  rw [IntType.convert, IntType.unsigned, if_neg Bool.false_ne_true,
    Int.emod_eq_of_lt (Int.natCast_nonneg n) (by exact_mod_cast h), Int.toNat_natCast]

theorem convert_signed (size : UInt8) (n : ℕ) :
    IntType.convert ⟨size.toNat, true⟩ n = toSigned n size := by
  rw [toSigned, BitVec.toInt_ofNat']
  rfl

end Conversions

abbrev Bytes := ℕ → UInt8

instance : Memory Bytes where
  read := readMemory
  write m addr bytes value := writeMemory m addr value bytes

/-- Registers and temporaries that are variables of their unsigned types, each location under a
name of its own. -/
structure Scope (Γ : String → IntType) (S : Set Varnode) : Prop where
  declarable : ∀ v ∈ S, Declarable v
  size : ∀ v ∈ S, v.size.toNat ∈ sizes
  name : ∀ v ∈ S, ∀ w ∈ S, nameOf v = nameOf w ↔ v.location = w.location
  typeOf : ∀ v ∈ S, Γ (nameOf v) = .unsigned v.size.toNat

/-- The variables hold the cells, and the memories are the same. -/
structure Holds (S : Set Varnode) (ρ : Env Bytes) (σ : State) : Prop where
  vars : ∀ v ∈ S, ρ.vars (nameOf v) = σ.cells v.location
  memory : ρ.memory = σ.memory

theorem Holds.zero (S : Set Varnode) : Holds S ⟨fun _ => 0, State.zero.memory⟩ .zero where
  vars _ _ := rfl
  memory := rfl

structure Plain (S : Set Varnode) (op : Instruction) : Prop where
  wellFormed : op.WellFormed
  dest : ∀ v, op.opDest = some v → v ∈ S
  operand : ∀ v ∈ op.operands, v.space = .constant ∨ v ∈ S
  size : ∀ v ∈ op.operands, v.size.toNat ∈ sizes
  /-- What is computed from literals alone has been folded. -/
  mixed : op.opDest.isSome → op.operands.length = 2 → ∃ v ∈ op.operands, v.space ≠ .constant
  direct : op ≠ .call .indirect

def truth (P : Prop) [Decidable P] : ℕ := if P then 1 else 0

variable {Γ : String → IntType} {S : Set Varnode} {ρ : Env Bytes} {σ σ' : State}

section Operands

variable (hS : Scope Γ S) (hρ : Holds S ρ σ) (hσ : σ.Bounded)

include hS

theorem Scope.targetName {v : Varnode} (hv : v ∈ S) : targetName v = nameOf v := by
  rw [Output.targetName, if_neg]
  rcases hS.declarable v hv with h | h <;> simp [h]

theorem Scope.operandExpr {v : Varnode} (hv : v ∈ S) : operandExpr v = .var (nameOf v) := by
  unfold Output.operandExpr
  rcases hS.declarable v hv with h | h <;> rw [h]

theorem Scope.not_constant {v : Varnode} (hv : v ∈ S) : v.space ≠ .constant := by
  rcases hS.declarable v hv with h | h <;> simp [h]

include hρ

theorem Holds.assign {dest : Varnode} (hdest : dest ∈ S) {n : ℤ} {value : ℕ}
    (h : n % 2 ^ (8 * dest.size.toNat) = (value : ℤ) % 2 ^ (8 * dest.size.toNat)) :
    Holds S (ρ.assign Γ (nameOf dest) n) (σ.write dest value) where
  vars v hv := by
    by_cases hname : nameOf v = nameOf dest
    · have hloc := (hS.name v hv dest hdest).mp hname
      simp only [Env.assign, State.write, hname, hloc, Function.update_self, hS.typeOf dest hdest]
      rw [IntType.convert, IntType.unsigned, if_neg Bool.false_ne_true, h, modulus]
      push_cast
      rfl
    · have hloc : v.location ≠ dest.location := fun hl => hname ((hS.name v hv dest hdest).mpr hl)
      simp only [Env.assign, State.write, Function.update_of_ne hname, Function.update_of_ne hloc]
      exact hρ.vars v hv
  memory := hρ.memory

include hσ

theorem eval_operandExpr {v : Varnode} (hv : v.Sized) (hin : v.space = .constant ∨ v ∈ S) :
    ∃ x, (operandExpr v).eval Γ ρ = some x ∧ x.2 = σ.read v ∧ IsOperand v.size.toNat x ∧
      (v.space ≠ .constant → x.1 = .unsigned v.size.toNat) := by
  have hlt := hσ.read_lt hv
  rcases hin with hc | hin
  · rw [σ.read_literal hc] at hlt ⊢
    refine ⟨(.ofLiteral v.offset.toNat, v.offset.toNat), ?_, rfl, .literal hlt, absurd hc⟩
    rw [Output.operandExpr, hc]
    exact if_pos v.offset.toNat_lt
  · have hspace := hS.not_constant hin
    have hread : σ.read v = σ.cells v.location := if_neg hspace
    refine ⟨(.unsigned v.size.toNat, σ.read v), ?_, rfl, .named hlt, fun _ => rfl⟩
    rw [hS.operandExpr hin, Expr.eval, hS.typeOf v hin, hρ.vars v hin, hread]

theorem Plain.eval_operands {op : Instruction} (hop : Plain S op) {dest lhs rhs : Varnode}
    (hdest : op.opDest = some dest) (hoperands : op.operands = [lhs, rhs]) (hl : lhs.Sized)
    (hr : rhs.Sized) (hsame : rhs.size = lhs.size) :
    ∃ x y, (operandExpr lhs).eval Γ ρ = some x ∧ (operandExpr rhs).eval Γ ρ = some y ∧
      x.2 = σ.read lhs ∧ y.2 = σ.read rhs ∧ IsOperand lhs.size.toNat x ∧
      IsOperand lhs.size.toNat y ∧ Computes lhs.size.toNat (x.1.common y.1) := by
  obtain ⟨x, hx, hxread, hxop, hxtype⟩ :=
    eval_operandExpr hS hρ hσ hl (hop.operand lhs (by simp [hoperands]))
  obtain ⟨y, hy, hyread, hyop, hytype⟩ :=
    eval_operandExpr hS hρ hσ hr (hop.operand rhs (by simp [hoperands]))
  rw [hsame] at hyop hytype
  refine ⟨x, y, hx, hy, hxread, hyread, hxop, hyop, ?_⟩
  refine .of_variable (hop.size lhs (by simp [hoperands])) hxop hyop ?_
  obtain ⟨v, hv, hspace⟩ := hop.mixed (by simp [hdest]) (by simp [hoperands])
  rw [hoperands] at hv
  rcases List.mem_cons.mp hv with rfl | hv
  · exact .inl (hxtype hspace)
  · obtain rfl := List.mem_singleton.mp hv
    exact .inr (hytype hspace)

theorem eval_add {dest lhs rhs : Varnode} (hop : Plain S (.intAdd dest lhs rhs)) :
    ∃ z, (Expr.binary .add (operandExpr lhs) (operandExpr rhs)).eval Γ ρ = some z ∧
      z.2 % 2 ^ (8 * dest.size.toNat) =
        ((σ.read lhs + σ.read rhs : ℕ) : ℤ) % 2 ^ (8 * dest.size.toNat) := by
  obtain ⟨-, hl, hr, hsame, hdest⟩ := hop.wellFormed
  obtain ⟨x, y, hx, hy, hxread, hyread, hxop, hyop, ht⟩ :=
    hop.eval_operands hS hρ hσ rfl rfl hl hr hsame
  obtain ⟨z, hz, hmod⟩ := apply_add ht hxop hyop
  refine ⟨z, ?_, ?_⟩
  · rw [Expr.eval, hx, hy]
    exact hz
  · rw [hdest, hmod, hxread, hyread]
    push_cast
    rfl

theorem eval_sub {dest lhs rhs : Varnode} (hop : Plain S (.intSub dest lhs rhs)) :
    ∃ z, (Expr.binary .sub (operandExpr lhs) (operandExpr rhs)).eval Γ ρ = some z ∧
      z.2 % 2 ^ (8 * dest.size.toNat) =
        ((σ.read lhs + modulus dest.size - σ.read rhs % modulus dest.size : ℕ) : ℤ) %
          2 ^ (8 * dest.size.toNat) := by
  obtain ⟨-, hl, hr, hsame, hdest⟩ := hop.wellFormed
  obtain ⟨x, y, hx, hy, hxread, hyread, hxop, hyop, ht⟩ :=
    hop.eval_operands hS hρ hσ rfl rfl hl hr hsame
  obtain ⟨z, hz, hmod⟩ := apply_sub ht hxop hyop
  refine ⟨z, ?_, ?_⟩
  · rw [Expr.eval, hx, hy]
    exact hz
  · have hlt : σ.read rhs < modulus lhs.size := hsame ▸ hσ.read_lt hr
    rw [hdest, hmod, hxread, hyread, Nat.mod_eq_of_lt hlt, Nat.cast_sub (by omega), modulus]
    push_cast
    rw [add_sub_right_comm, Int.add_emod_right]

theorem eval_equal {dest lhs rhs : Varnode} (hop : Plain S (.intEqual dest lhs rhs)) :
    (Expr.binary .eq (operandExpr lhs) (operandExpr rhs)).eval Γ ρ =
      some (IntType.int, (truth (σ.read lhs = σ.read rhs) : ℤ)) := by
  obtain ⟨-, -, hl, hr, hsame⟩ := hop.wellFormed
  obtain ⟨x, y, hx, hy, hxread, hyread, hxop, hyop, ht⟩ :=
    hop.eval_operands hS hρ hσ rfl rfl hl hr hsame
  rw [Expr.eval, hx, hy, Option.bind_some, Option.bind_some, apply_eq ht hxop hyop, hxread, hyread]
  simp only [truth, Nat.cast_inj, Nat.cast_ite, Nat.cast_one, Nat.cast_zero]

theorem eval_notEqual {dest lhs rhs : Varnode} (hop : Plain S (.intNotEqual dest lhs rhs)) :
    (Expr.binary .ne (operandExpr lhs) (operandExpr rhs)).eval Γ ρ =
      some (IntType.int, (truth (σ.read lhs ≠ σ.read rhs) : ℤ)) := by
  obtain ⟨-, -, hl, hr, hsame⟩ := hop.wellFormed
  obtain ⟨x, y, hx, hy, hxread, hyread, hxop, hyop, ht⟩ :=
    hop.eval_operands hS hρ hσ rfl rfl hl hr hsame
  rw [Expr.eval, hx, hy, Option.bind_some, Option.bind_some, apply_ne ht hxop hyop, hxread, hyread]
  simp only [truth, ne_eq, Nat.cast_inj, Nat.cast_ite, Nat.cast_one, Nat.cast_zero]

omit hS hρ hσ in
theorem eval_signed {lhs rhs : Varnode} (hsize : lhs.size.toNat ∈ sizes) {x y : IntType × ℤ}
    (hx : (operandExpr lhs).eval Γ ρ = some x) (hy : (operandExpr rhs).eval Γ ρ = some y)
    (hxread : x.2 = σ.read lhs) (hyread : y.2 = σ.read rhs) (o : BinaryOp) :
    (Expr.binary o (.cast (signedType lhs.size) (operandExpr lhs))
        (.cast (signedType lhs.size) (operandExpr rhs))).eval Γ ρ =
      o.apply (IntType.common ⟨lhs.size.toNat, true⟩ ⟨lhs.size.toNat, true⟩)
        (toSigned (σ.read lhs) lhs.size) (toSigned (σ.read rhs) lhs.size) := by
  have htype : signedType lhs.size = ⟨lhs.size.toNat, true⟩ := by
    rw [signedType, wordBytes_of_mem hsize]
  simp only [Expr.eval, hx, hy, Option.map_some, Option.bind_some, htype, hxread, hyread,
    convert_common_signed hsize]
  rw [convert_signed, convert_signed]

theorem eval_sless {dest lhs rhs : Varnode} (hop : Plain S (.intSless dest lhs rhs)) :
    (Expr.binary .lt (.cast (signedType lhs.size) (operandExpr lhs))
        (.cast (signedType lhs.size) (operandExpr rhs))).eval Γ ρ =
      some (IntType.int,
        (truth (toSigned (σ.read lhs) lhs.size < toSigned (σ.read rhs) lhs.size) : ℤ)) := by
  obtain ⟨-, -, hl, hr, hsame⟩ := hop.wellFormed
  obtain ⟨x, y, hx, hy, hxread, hyread, -⟩ := hop.eval_operands hS hρ hσ rfl rfl hl hr hsame
  rw [eval_signed (hop.size lhs (by simp [Instruction.operands])) hx hy hxread hyread,
    BinaryOp.apply]
  simp only [truth, Nat.cast_ite, Nat.cast_one, Nat.cast_zero]

theorem eval_slessEqual {dest lhs rhs : Varnode} (hop : Plain S (.intSlessEqual dest lhs rhs)) :
    (Expr.binary .le (.cast (signedType lhs.size) (operandExpr lhs))
        (.cast (signedType lhs.size) (operandExpr rhs))).eval Γ ρ =
      some (IntType.int,
        (truth (toSigned (σ.read lhs) lhs.size ≤ toSigned (σ.read rhs) lhs.size) : ℤ)) := by
  obtain ⟨-, -, hl, hr, hsame⟩ := hop.wellFormed
  obtain ⟨x, y, hx, hy, hxread, hyread, -⟩ := hop.eval_operands hS hρ hσ rfl rfl hl hr hsame
  rw [eval_signed (hop.size lhs (by simp [Instruction.operands])) hx hy hxread hyread,
    BinaryOp.apply]
  simp only [truth, Nat.cast_ite, Nat.cast_one, Nat.cast_zero]

end Operands

/-- What the two kinds of callees have to agree about. -/
structure SameCalls (S : Set Varnode) (callee : BranchTarget → State → State)
    (callee' : String → Env Bytes → Env Bytes) : Prop where
  bounded : ∀ target σ, σ.Bounded → (callee target σ).Bounded
  holds : ∀ a ρ σ, Holds S ρ σ → Holds S (callee' ("sub_0x" ++ hex a) ρ) (callee (.absolute a) σ)

theorem SameCalls.id (S : Set Varnode) : SameCalls S (fun _ σ => σ) fun _ ρ => ρ where
  bounded _ _ h := h
  holds _ _ _ h := h

section Steps

variable {callee : BranchTarget → State → State} {callee' : String → Env Bytes → Env Bytes}
  {stmts k : List Stmt} (hS : Scope Γ S) (hρ : Holds S ρ σ)

include hS hρ

theorem runs_assign {dest : Varnode} (hdest : dest ∈ S) {e : Expr} {z : IntType × ℤ} {value : ℕ}
    (heval : e.eval Γ ρ = some z)
    (h : z.2 % 2 ^ (8 * dest.size.toNat) = (value : ℤ) % 2 ^ (8 * dest.size.toNat)) :
    ∃ ρ', Runs Γ callee' stmts (.run (.assign (targetName dest) e :: k), ρ) (.run k, ρ') ∧
      Holds S ρ' (σ.write dest value) := by
  rw [hS.targetName hdest]
  refine ⟨ρ.assign Γ (nameOf dest) z.2, .single ?_, hρ.assign hS hdest h⟩
  rw [Option.mem_def, step, heval]
  rfl

variable (hσ : σ.Bounded)

include hσ

/-- A plain operation that falls through is executed by its statements. -/
theorem runs_statements (hcalls : SameCalls S callee callee') {op : Instruction}
    (hop : Plain S op) (hcontrol : op.control σ = .fall) (hexec : op.exec callee σ = some σ') :
    ∃ ρ', Runs Γ callee' stmts (.run (statements op ++ k), ρ) (.run k, ρ') ∧ Holds S ρ' σ' := by
  have hwf := hop.wellFormed
  have heval : ∀ v ∈ op.operands, v.Sized → ∃ x, (operandExpr v).eval Γ ρ = some x ∧
      x.2 = σ.read v := by
    intro v hv hsized
    obtain ⟨x, hx, hread, -⟩ := eval_operandExpr hS hρ hσ hsized (hop.operand v hv)
    exact ⟨x, hx, hread⟩
  have haddress : ∀ v : Varnode, v.Sized → σ.read v < 2 ^ (8 * 8) := by
    intro v hv
    have hsize := hv.2.1
    exact (hσ.read_lt hv).trans_le (Nat.pow_le_pow_right (by decide) (by omega))
  cases op with
  | copy dest src =>
    obtain ⟨x, hx, hread⟩ := heval src (by simp [Instruction.operands]) hwf.2.1
    obtain rfl := Option.some.inj hexec
    exact runs_assign hS hρ (hop.dest dest rfl) hx (by rw [hread])
  | load dest addr =>
    obtain ⟨x, hx, hread⟩ := heval addr (by simp [Instruction.operands]) hwf.2.2
    obtain rfl := Option.some.inj hexec
    have hdest := hop.dest dest rfl
    have htype : wordType dest.size = .unsigned dest.size.toNat := by
      rw [wordType, wordBytes_of_mem (hS.size dest hdest)]
    refine runs_assign hS hρ hdest (z := (_, _)) (by rw [Expr.eval, hx, Option.map_some]) ?_
    rw [htype, hread, toNat_convert_unsigned (haddress addr hwf.2.2), hρ.memory]
    exact Int.emod_emod_of_dvd _ (dvd_refl _)
  | store addr src =>
    obtain ⟨a, ha, haread⟩ := heval addr (by simp [Instruction.operands]) hwf.1
    obtain ⟨x, hx, hread⟩ := heval src (by simp [Instruction.operands]) hwf.2
    obtain rfl := Option.some.inj hexec
    have htype : wordType src.size = .unsigned src.size.toNat := by
      rw [wordType, wordBytes_of_mem (hop.size src (by simp [Instruction.operands]))]
    refine ⟨ρ.store a.2 (wordType src.size).bytes x.2, .single ?_, hρ.vars, ?_⟩
    · rw [Option.mem_def, statements, List.singleton_append, step, ha, Option.bind_some, hx]
      rfl
    · have hvalue := @toNat_convert_unsigned src.size.toNat _ (hσ.read_lt hwf.2)
      simp only [Env.store, haread, hread, htype, hρ.memory,
        toNat_convert_unsigned (haddress addr hwf.1)]
      exact congrArg (writeMemory σ.memory (σ.read addr) · src.size.toNat) hvalue
  | intAdd dest lhs rhs =>
    obtain ⟨z, hz, hmod⟩ := eval_add hS hρ hσ hop
    obtain rfl := Option.some.inj hexec
    exact runs_assign hS hρ (hop.dest dest rfl) hz hmod
  | intSub dest lhs rhs =>
    obtain ⟨z, hz, hmod⟩ := eval_sub hS hρ hσ hop
    obtain rfl := Option.some.inj hexec
    exact runs_assign hS hρ (hop.dest dest rfl) hz hmod
  | intEqual dest lhs rhs =>
    obtain rfl := Option.some.inj hexec
    exact runs_assign hS hρ (hop.dest dest rfl) (eval_equal hS hρ hσ hop) rfl
  | intNotEqual dest lhs rhs =>
    obtain rfl := Option.some.inj hexec
    exact runs_assign hS hρ (hop.dest dest rfl) (eval_notEqual hS hρ hσ hop) rfl
  | intSless dest lhs rhs =>
    obtain rfl := Option.some.inj hexec
    exact runs_assign hS hρ (hop.dest dest rfl) (eval_sless hS hρ hσ hop) rfl
  | intSlessEqual dest lhs rhs =>
    obtain rfl := Option.some.inj hexec
    exact runs_assign hS hρ (hop.dest dest rfl) (eval_slessEqual hS hρ hσ hop) rfl
  | cbranch condition target =>
    obtain ⟨x, hx, hread⟩ := heval condition (by simp [Instruction.operands]) hwf
    obtain rfl := Option.some.inj hexec
    have hzero : σ.read condition = 0 := by
      by_contra hne
      rw [Instruction.control, if_pos hne] at hcontrol
      cases hcontrol
    refine ⟨ρ, .single ?_, hρ⟩
    rw [Option.mem_def, statements, List.singleton_append, step, hx, Option.map_some, hread, hzero]
    rfl
  | call target =>
    cases target with
    | indirect => exact absurd rfl hop.direct
    | absolute a =>
      obtain rfl := Option.some.inj hexec
      exact ⟨callee' ("sub_0x" ++ hex a) ρ, .single rfl, hcalls.holds a ρ σ hρ⟩
  | nop =>
    obtain rfl := Option.some.inj hexec
    exact ⟨ρ, .refl, hρ⟩
  | branch target => cases hcontrol
  | ret => cases hcontrol
  | phi dest srcs => exact absurd hwf id

end Steps

end Decompiler.Output
