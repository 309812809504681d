import Decompiler.ConstProp.Order
import Decompiler.ConstProp.Words

/-! # Folding one operation

Where the analysis state is right about the operands of a well-formed operation,
the substituted and folded operation does the same as the original one, and the
state after it is right about its destination.
-/

namespace Decompiler.ConstProp

/-- A constant that the analysis knows for a varnode is its content. -/
def Right (s : ConstState) (σ : State) (v : Varnode) : Prop :=
  ∀ x, s.get v.location = .const x → σ.read v = x.toNat

section

variable {s : ConstState} {σ σ' : State} {v dest lhs rhs : Varnode}

theorem right_of_constant (hv : v.space = .constant) : Right s σ v := by
  intro x hx
  rw [ConstState.get_of_constant s hv, ConstValue.const.injEq] at hx
  rw [State.read_literal σ hv, ← hx]

theorem substitute_cases (v : Varnode) (s : ConstState) :
    substitute v s = v ∨
      ∃ x, s.get v.location = .const x ∧ substitute v s = .constant x v.size := by
  unfold substitute
  split
  case h_1 x hx =>
    split
    · exact Or.inr ⟨x, hx, rfl⟩
    · exact Or.inl rfl
  case h_2 => exact Or.inl rfl

@[simp] theorem size_substitute (v : Varnode) (s : ConstState) :
    (substitute v s).size = v.size := by
  rcases substitute_cases v s with h | ⟨x, -, h⟩ <;> simp [h, Varnode.constant, Varnode.new]

theorem read_substitute (h : Right s σ v) : σ.read (substitute v s) = σ.read v := by
  rcases substitute_cases v s with hs | ⟨x, hx, hs⟩
  · rw [hs]
  · rw [hs, h x hx]
    exact State.read_literal σ rfl

theorem write_congr {a b : ℕ} (h : a % modulus dest.size = b % modulus dest.size) :
    σ.write dest a = σ.write dest b := by
  rw [State.write, State.write, h]

theorem foldBinop_cases (op : Varnode → Varnode → Varnode → Instruction)
    (dest lhs rhs : Varnode) (s : ConstState) (f : UInt64 → UInt64 → UInt64) :
    foldBinop op dest lhs rhs s f = op dest (substitute lhs s) (substitute rhs s) ∨
      ∃ a b, s.get lhs.location = .const a ∧ s.get rhs.location = .const b ∧
        foldBinop op dest lhs rhs s f = .copy dest (.constant (f a b) dest.size) := by
  unfold foldBinop foldOrKeep
  split
  case h_1 a b ha hb => exact Or.inr ⟨a, b, ha, hb, rfl⟩
  case h_2 => exact Or.inl rfl

section Words

theorem boolWord_toNat (c : Bool) : (boolWord c).toNat = if c then 1 else 0 := by
  cases c <;> rfl

theorem mask_eq_iff {size : UInt8} (h1 : 1 ≤ size.toNat) (h8 : size.toNat ≤ 8) {a b : UInt64}
    (ha : a.toNat < modulus size) (hb : b.toNat < modulus size) :
    mask a size = mask b size ↔ a.toNat = b.toNat := by
  rw [← UInt64.toNat_inj, mask_toNat h1 h8, mask_toNat h1 h8, Nat.mod_eq_of_lt ha,
    Nat.mod_eq_of_lt hb]

theorem signed_lt_iff {size : UInt8} (h1 : 1 ≤ size.toNat) (h8 : size.toNat ≤ 8) (a b : UInt64) :
    signed a size < signed b size ↔ toSigned a.toNat size < toSigned b.toNat size := by
  rw [Int64.lt_iff_toInt_lt, signed_toInt h1 h8, signed_toInt h1 h8]

theorem signed_le_iff {size : UInt8} (h1 : 1 ≤ size.toNat) (h8 : size.toNat ≤ 8) (a b : UInt64) :
    signed a size ≤ signed b size ↔ toSigned a.toNat size ≤ toSigned b.toNat size := by
  rw [Int64.le_iff_toInt_le, signed_toInt h1 h8, signed_toInt h1 h8]

theorem modulus_dvd {size : UInt8} (h8 : size.toNat ≤ 8) : modulus size ∣ 2 ^ 64 :=
  Nat.pow_dvd_pow 2 (by omega)

theorem addWord_toNat {dest : Varnode} (h1 : 1 ≤ dest.size.toNat) (h8 : dest.size.toNat ≤ 8)
    (a b : UInt64) : (addWord dest a b).toNat = (a.toNat + b.toNat) % modulus dest.size := by
  rw [addWord, mask_toNat h1 h8, UInt64.toNat_add, Nat.mod_mod_of_dvd _ (modulus_dvd h8)]

theorem subWord_toNat {dest : Varnode} (h1 : 1 ≤ dest.size.toNat) (h8 : dest.size.toNat ≤ 8)
    (a b : UInt64) : (subWord dest a b).toNat =
      (a.toNat + modulus dest.size - b.toNat % modulus dest.size) % modulus dest.size := by
  rw [subWord, mask_toNat h1 h8, UInt64.toNat_sub, Nat.mod_mod_of_dvd _ (modulus_dvd h8)]
  set m := modulus dest.size with hm
  have hpos : 0 < m := modulus_pos _
  obtain ⟨k, hk⟩ := modulus_dvd h8
  have hdiv := Nat.div_add_mod b.toNat m
  have hlt := Nat.mod_lt b.toNat hpos
  have hq : b.toNat / m < k := Nat.div_lt_of_lt_mul (by rw [hm, ← hk]; exact b.toNat_lt)
  obtain ⟨d, rfl⟩ := Nat.exists_eq_add_of_lt hq
  have hexp : 2 ^ 64 = m * (b.toNat / m) + m + m * d := by
    rw [hk, ← hm, Nat.mul_add, Nat.mul_add, Nat.mul_one]
    omega
  have heq : 2 ^ 64 - b.toNat + a.toNat = a.toNat + m - b.toNat % m + m * d := by omega
  rw [heq, Nat.add_mul_mod_self_left]

end Words

variable {callee : BranchTarget → State → State}

/-- The operations with two operands, each with the closure that evaluates it. -/
inductive Binop : Instruction → Varnode → Varnode → Varnode → (UInt64 → UInt64 → UInt64) → Prop
  | intAdd (dest lhs rhs : Varnode) : Binop (.intAdd dest lhs rhs) dest lhs rhs (addWord dest)
  | intSub (dest lhs rhs : Varnode) : Binop (.intSub dest lhs rhs) dest lhs rhs (subWord dest)
  | intEqual (dest lhs rhs : Varnode) :
    Binop (.intEqual dest lhs rhs) dest lhs rhs (equalWord lhs)
  | intNotEqual (dest lhs rhs : Varnode) :
    Binop (.intNotEqual dest lhs rhs) dest lhs rhs (notEqualWord lhs)
  | intSless (dest lhs rhs : Varnode) :
    Binop (.intSless dest lhs rhs) dest lhs rhs (slessWord lhs)
  | intSlessEqual (dest lhs rhs : Varnode) :
    Binop (.intSlessEqual dest lhs rhs) dest lhs rhs (slessEqualWord lhs)

namespace Binop

variable {op : Instruction} {f : UInt64 → UInt64 → UInt64} (h : Binop op dest lhs rhs f)

include h

theorem operands_eq : op.operands = [lhs, rhs] := by cases h <;> rfl

theorem opDest_eq : op.opDest = some dest := by cases h <;> rfl

theorem transfer_eq : transferInstruction op s = transferBinop dest lhs rhs f s := by
  cases h <;> rfl

theorem dest_ne_constant (hop : op.WellFormed) : dest.space ≠ .constant := by
  cases h <;> exact hop.1

theorem exec_eq (hop : op.WellFormed) (hσ : σ.Bounded) {a b : UInt64}
    (ha : σ.read lhs = a.toNat) (hb : σ.read rhs = b.toNat) :
    op.exec callee σ = some (σ.write dest (f a b).toNat) := by
  have hbool : ∀ {p : Prop} [Decidable p] {c : Bool}, (c = true ↔ p) →
      σ.write dest (if p then 1 else 0) = σ.write dest (boolWord c).toNat := by
    intro p _ c hpc
    simp only [boolWord_toNat, hpc]
  cases h with
  | intAdd =>
    obtain ⟨-, ⟨h1, h8, -⟩, -, -, hsize⟩ := hop
    rw [Instruction.exec, ha, hb]
    refine congrArg some (write_congr ?_)
    rw [addWord_toNat (hsize ▸ h1) (hsize ▸ h8), Nat.mod_mod]
  | intSub =>
    obtain ⟨-, ⟨h1, h8, -⟩, -, -, hsize⟩ := hop
    rw [Instruction.exec, ha, hb]
    refine congrArg some (write_congr ?_)
    rw [subWord_toNat (hsize ▸ h1) (hsize ▸ h8), Nat.mod_mod]
  | intEqual =>
    obtain ⟨-, -, hl, hr, hsize⟩ := hop
    rw [Instruction.exec, ha, hb]
    refine congrArg some (hbool ?_)
    rw [beq_iff_eq, mask_eq_iff hl.1 hl.2.1 (ha ▸ hσ.read_lt hl) (hsize ▸ hb ▸ hσ.read_lt hr)]
  | intNotEqual =>
    obtain ⟨-, -, hl, hr, hsize⟩ := hop
    rw [Instruction.exec, ha, hb]
    refine congrArg some (hbool ?_)
    rw [bne_iff_ne, Ne, mask_eq_iff hl.1 hl.2.1 (ha ▸ hσ.read_lt hl) (hsize ▸ hb ▸ hσ.read_lt hr)]
  | intSless =>
    obtain ⟨-, -, hl, -, -⟩ := hop
    rw [Instruction.exec, ha, hb]
    refine congrArg some (hbool ?_)
    rw [decide_eq_true_iff, signed_lt_iff hl.1 hl.2.1]
  | intSlessEqual =>
    obtain ⟨-, -, hl, -, -⟩ := hop
    rw [Instruction.exec, ha, hb]
    refine congrArg some (hbool ?_)
    rw [decide_eq_true_iff, signed_le_iff hl.1 hl.2.1]

theorem result_lt (hop : op.WellFormed) (a b : UInt64) : (f a b).toNat < modulus dest.size := by
  have hbool : ∀ {size : UInt8} (c : Bool), 1 ≤ size.toNat →
      (boolWord c).toNat < modulus size := by
    intro size c h1
    have hle : 2 ^ 8 ≤ modulus size := Nat.pow_le_pow_right (by decide) (by omega)
    rw [boolWord_toNat]
    split <;> omega
  cases h with
  | intAdd => exact mask_toNat_lt (hop.2.2.2.2 ▸ hop.2.1.1) (hop.2.2.2.2 ▸ hop.2.1.2.1) _
  | intSub => exact mask_toNat_lt (hop.2.2.2.2 ▸ hop.2.1.1) (hop.2.2.2.2 ▸ hop.2.1.2.1) _
  | intEqual => exact hbool _ hop.2.1.1
  | intNotEqual => exact hbool _ hop.2.1.1
  | intSless => exact hbool _ hop.2.1.1
  | intSlessEqual => exact hbool _ hop.2.1.1

end Binop

/-- Folding an operation with two operands, given that the kept form reads its
operands by their values only. -/
theorem exec_foldBinop {op : Varnode → Varnode → Varnode → Instruction}
    {f : UInt64 → UInt64 → UInt64} (hbin : Binop (op dest lhs rhs) dest lhs rhs f)
    (hop : (op dest lhs rhs).WellFormed) (hσ : σ.Bounded)
    (h : ∀ v ∈ (op dest lhs rhs).operands, Right s σ v)
    (hkeep : ∀ l r, σ.read l = σ.read lhs → l.size = lhs.size → σ.read r = σ.read rhs →
      (op dest l r).exec callee σ = (op dest lhs rhs).exec callee σ) :
    (foldBinop op dest lhs rhs s f).exec callee σ = (op dest lhs rhs).exec callee σ := by
  rw [hbin.operands_eq] at h
  have hl := h lhs (by simp)
  have hr := h rhs (by simp)
  rcases foldBinop_cases op dest lhs rhs s f with hf | ⟨a, b, ha, hb, hf⟩
  · rw [hf]
    exact hkeep _ _ (read_substitute hl) (size_substitute _ _) (read_substitute hr)
  · rw [hf, hbin.exec_eq hop hσ (hl a ha) (hr b hb)]
    exact congrArg (fun n => some (σ.write dest n)) (State.read_literal σ rfl)

theorem exec_substituteAndFold {op : Instruction} (hop : op.WellFormed) (hσ : σ.Bounded)
    (h : ∀ v ∈ op.operands, Right s σ v) :
    (substituteAndFold op s).exec callee σ = op.exec callee σ := by
  have hread : ∀ v ∈ op.operands, σ.read (substitute v s) = σ.read v := fun v hv =>
    read_substitute (h v hv)
  cases op with
  | copy dest src =>
    simp only [substituteAndFold, Instruction.exec, hread src (by simp [Instruction.operands])]
  | load dest addr =>
    simp only [substituteAndFold, Instruction.exec, hread addr (by simp [Instruction.operands])]
  | store addr src =>
    simp only [substituteAndFold, Instruction.exec, size_substitute,
      hread addr (by simp [Instruction.operands]), hread src (by simp [Instruction.operands])]
  | phi dest srcs => exact absurd hop id
  | intAdd dest lhs rhs =>
    exact exec_foldBinop (.intAdd dest lhs rhs) hop hσ h fun l r hl _ hr => by
      simp only [Instruction.exec, hl, hr]
  | intSub dest lhs rhs =>
    exact exec_foldBinop (.intSub dest lhs rhs) hop hσ h fun l r hl _ hr => by
      simp only [Instruction.exec, hl, hr]
  | intEqual dest lhs rhs =>
    exact exec_foldBinop (.intEqual dest lhs rhs) hop hσ h fun l r hl _ hr => by
      simp only [Instruction.exec, hl, hr]
  | intNotEqual dest lhs rhs =>
    exact exec_foldBinop (.intNotEqual dest lhs rhs) hop hσ h fun l r hl _ hr => by
      simp only [Instruction.exec, hl, hr]
  | intSless dest lhs rhs =>
    exact exec_foldBinop (.intSless dest lhs rhs) hop hσ h fun l r hl hs hr => by
      simp only [Instruction.exec, hl, hr, hs]
  | intSlessEqual dest lhs rhs =>
    exact exec_foldBinop (.intSlessEqual dest lhs rhs) hop hσ h fun l r hl hs hr => by
      simp only [Instruction.exec, hl, hr, hs]
  | branch target => rfl
  | cbranch condition target => rfl
  | call target => rfl
  | ret => rfl
  | nop => rfl

theorem control_foldBinop {op : Varnode → Varnode → Varnode → Instruction}
    (hop : ∀ d l r, (op d l r).control σ = .fall) (f : UInt64 → UInt64 → UInt64) :
    (foldBinop op dest lhs rhs s f).control σ = .fall := by
  rcases foldBinop_cases op dest lhs rhs s f with h | ⟨a, b, -, -, h⟩
  · rw [h, hop]
  · rw [h]
    rfl

theorem control_substituteAndFold {op : Instruction} (h : ∀ v ∈ op.operands, Right s σ v) :
    (substituteAndFold op s).control σ = op.control σ := by
  cases op with
  | cbranch condition target =>
    simp only [substituteAndFold, Instruction.control,
      read_substitute (h condition (by simp [Instruction.operands]))]
  | intAdd => exact control_foldBinop (fun _ _ _ => rfl) _
  | intSub => exact control_foldBinop (fun _ _ _ => rfl) _
  | intEqual => exact control_foldBinop (fun _ _ _ => rfl) _
  | intNotEqual => exact control_foldBinop (fun _ _ _ => rfl) _
  | intSless => exact control_foldBinop (fun _ _ _ => rfl) _
  | intSlessEqual => exact control_foldBinop (fun _ _ _ => rfl) _
  | _ => rfl

theorem Binop.get_dest {op : Instruction} {f : UInt64 → UInt64 → UInt64}
    (h : Binop op dest lhs rhs f) (hop : op.WellFormed) :
    (transferInstruction op s).get dest.location =
      evalBinop (s.get lhs.location) (s.get rhs.location) f := by
  rw [h.transfer_eq]
  exact ConstState.get_set_self s (h.dest_ne_constant hop) _

theorem evalBinop_eq_const {a b : ConstValue} {f : UInt64 → UInt64 → UInt64} {x : UInt64}
    (h : evalBinop a b f = .const x) : ∃ y z, a = .const y ∧ b = .const z ∧ f y z = x := by
  cases a <;> cases b <;> simp_all [evalBinop]

theorem opDest_cases {op : Instruction} (h : op.opDest = some dest) :
    (∃ src, op = .copy dest src) ∨ (∃ addr, op = .load dest addr) ∨
      (∃ srcs, op = .phi dest srcs) ∨ ∃ lhs rhs f, Binop op dest lhs rhs f := by
  cases op with
  | copy d src => exact Or.inl ⟨src, by rw [Option.some.inj h]⟩
  | load d addr => exact Or.inr (Or.inl ⟨addr, by rw [Option.some.inj h]⟩)
  | phi d srcs => exact Or.inr (Or.inr (Or.inl ⟨srcs, by rw [Option.some.inj h]⟩))
  | store addr src => cases h
  | branch target => cases h
  | cbranch condition target => cases h
  | call target => cases h
  | ret => cases h
  | nop => cases h
  | intAdd d lhs rhs =>
    obtain rfl := Option.some.inj h
    exact Or.inr (Or.inr (Or.inr ⟨_, _, _, .intAdd d lhs rhs⟩))
  | intSub d lhs rhs =>
    obtain rfl := Option.some.inj h
    exact Or.inr (Or.inr (Or.inr ⟨_, _, _, .intSub d lhs rhs⟩))
  | intEqual d lhs rhs =>
    obtain rfl := Option.some.inj h
    exact Or.inr (Or.inr (Or.inr ⟨_, _, _, .intEqual d lhs rhs⟩))
  | intNotEqual d lhs rhs =>
    obtain rfl := Option.some.inj h
    exact Or.inr (Or.inr (Or.inr ⟨_, _, _, .intNotEqual d lhs rhs⟩))
  | intSless d lhs rhs =>
    obtain rfl := Option.some.inj h
    exact Or.inr (Or.inr (Or.inr ⟨_, _, _, .intSless d lhs rhs⟩))
  | intSlessEqual d lhs rhs =>
    obtain rfl := Option.some.inj h
    exact Or.inr (Or.inr (Or.inr ⟨_, _, _, .intSlessEqual d lhs rhs⟩))

/-- After a well-formed operation the analysis is right about its destination. -/
theorem right_dest {op : Instruction} (hop : op.WellFormed) (hσ : σ.Bounded)
    (h : ∀ v ∈ op.operands, Right s σ v) (hexec : op.exec callee σ = some σ')
    (hdest : op.opDest = some dest) : Right (transferInstruction op s) σ' dest := by
  intro x hx
  rcases opDest_cases hdest with ⟨src, rfl⟩ | ⟨addr, rfl⟩ | ⟨srcs, rfl⟩ | ⟨lhs, rhs, f, hbin⟩
  · obtain ⟨hd, hsrc, hsize⟩ := hop
    rw [show transferInstruction (.copy dest src) s = s.set dest.location (s.get src.location)
      from rfl, ConstState.get_set_self s hd] at hx
    rw [← Option.some.inj hexec, State.read_write_self σ hd,
      ← h src (by simp [Instruction.operands]) x hx,
      Nat.mod_eq_of_lt (hsize ▸ hσ.read_lt hsrc)]
  · rw [show transferInstruction (.load dest addr) s = s.set dest.location .notConstant from rfl,
      ConstState.get_set_self s hop.1] at hx
    cases hx
  · exact absurd hop id
  · rw [hbin.operands_eq] at h
    rw [hbin.get_dest hop] at hx
    obtain ⟨a, b, ha, hb, rfl⟩ := evalBinop_eq_const hx
    rw [hbin.exec_eq hop hσ (h lhs (by simp) a ha) (h rhs (by simp) b hb)] at hexec
    rw [← Option.some.inj hexec, State.read_write_self σ (hbin.dest_ne_constant hop),
      Nat.mod_eq_of_lt (hbin.result_lt hop a b)]

end

end Decompiler.ConstProp
