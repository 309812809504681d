import Decompiler.Cli.Registers
import Decompiler.ConstProp.Shape
import Decompiler.Output.Meaning

/-! # Sizes and memory of lifted code

The lifters emit operands of the sizes that C has types for, and no memory access. So there is
nothing from which type inference could start: decoded code has no inferred types.
-/

namespace Decompiler

open Output Decompiler.Types

/-- Operands have sizes with a C type, memory is not accessed, and the target of a call is known. -/
structure Measured (op : Instruction) : Prop where
  dest : ∀ v, op.opDest = some v → v.size.toNat ∈ sizes
  operand : ∀ v ∈ op.operands, v.size.toNat ∈ sizes
  access : accessed op = none
  direct : op ≠ .call .indirect

theorem measured_of_all {ops : List Instruction}
    (h : ops.all fun op => ((op.opDest.toList ++ op.operands).all fun v => v.size.toNat ∈ sizes) &&
      (accessed op).isNone && op ≠ .call .indirect) : ∀ op ∈ ops, Measured op := by
  intro op hop
  have hall := List.all_eq_true.mp h op hop
  simp only [Bool.and_eq_true, List.all_eq_true, List.mem_append, decide_eq_true_eq,
    Option.isNone_iff_eq_none, Option.mem_toList] at hall
  obtain ⟨⟨hsize, haccess⟩, hdirect⟩ := hall
  exact ⟨fun v hv => hsize v (.inl hv), fun v hv => hsize v (.inr hv), haccess, hdirect⟩

def Backend.Measures {I : Type} (backend : Backend I) : Prop :=
  ∀ {i address length temps ops temps'},
    backend.lift i address length temps = .ok (ops, temps') → ∀ op ∈ ops, Measured op

namespace X86

theorem measured_liftCmp {lhs : Reg32} {rhs : Varnode} {temps temps' : TempAllocator}
    {ops : List Instruction} (hrhs : rhs.size = regSize)
    (h : liftCmp lhs rhs temps = .ok (ops, temps')) : ∀ op ∈ ops, Measured op := by
  obtain ⟨⟨diff, t⟩, hfresh, h⟩ := Fallible.bind_eq_ok.mp h
  obtain ⟨rfl, rfl, -⟩ := fresh_eq_ok hfresh
  obtain ⟨rfl, rfl⟩ := Prod.mk.inj (Except.ok.inj h)
  refine measured_of_all ?_
  simp [Instruction.opDest, Instruction.operands, accessed, regVarnode, zfVarnode,
    Varnode.register, Varnode.named, Varnode.constant, Varnode.new, hrhs, regSize, sizes]

theorem measures : backend.Measures := by
  intro i address length temps ops temps' h
  change lift i address length temps = .ok (ops, temps') at h
  cases i with
  | movRegReg | movRegImm | addRegReg | addRegImm | ret =>
    exact holds_of_return (P := fun ops => ∀ op ∈ ops, Measured op) h (measured_of_all rfl)
  | cmpRegReg | cmpRegImm => exact measured_liftCmp rfl h
  | jmp | je | call =>
    exact holds_of_target (P := fun ops => ∀ op ∈ ops, Measured op) h fun _ => measured_of_all rfl
  | jne rel =>
    obtain ⟨target, -, h⟩ := Fallible.bind_eq_ok.mp h
    obtain ⟨⟨notZf, t⟩, hfresh, h⟩ := Fallible.bind_eq_ok.mp h
    obtain ⟨rfl, rfl, -⟩ := fresh_eq_ok hfresh
    obtain ⟨rfl, rfl⟩ := Prod.mk.inj (Except.ok.inj h)
    exact measured_of_all rfl

end X86

theorem Arm.measures : backend.Measures := by
  intro i address length temps ops temps' h
  change lift i address length temps = .ok (ops, temps') at h
  cases i with
  | movRegImm | addRegReg | addRegImm | cmpRegReg | cmpRegImm | ret =>
    exact holds_of_return (P := fun ops => ∀ op ∈ ops, Measured op) h (measured_of_all rfl)
  | b | bl | beq | bne =>
    exact holds_of_target (P := fun ops => ∀ op ∈ ops, Measured op) h fun _ => measured_of_all rfl

theorem Decodes.measured {I : Type} {backend : Backend I} (hmeasures : backend.Measures)
    {bytes : List UInt8} {base : Address} {offset : ℕ} {temps : TempAllocator}
    {lis : List LiftedInstruction} (h : Decodes backend bytes base offset temps lis) :
    ∀ op ∈ lis.flatMap LiftedInstruction.ops, Measured op := by
  intro op hop
  obtain ⟨li, hli, hop⟩ := List.mem_flatMap.mp hop
  obtain ⟨_, _, _, _, -, hdec⟩ := h.decodedAt hli
  obtain ⟨result, -, -, hlift⟩ := hdec.decoded
  exact hmeasures hlift op hop

theorem Arch.processFunction_measured {arch : Arch} {name : String} {bytes : List UInt8}
    {base : Address} {f : Function} (h : arch.processFunction name bytes base = .ok f) :
    ∀ op ∈ programOps f, Measured op := by
  have hflat : ∀ flat, (∀ op ∈ flat.flatMap LiftedInstruction.ops, Measured op) →
      ∀ op ∈ programOps (.ofStream name base flat), Measured op := by
    intro flat hall op hop
    obtain ⟨b, hb, hop⟩ := List.mem_flatMap.mp hop
    obtain rfl := List.mem_singleton.mp hb
    exact hall op hop
  cases arch with
  | x86 =>
    obtain ⟨flat, rfl, hdec⟩ := processFunction_decodes h
    exact hflat flat (hdec.measured X86.measures)
  | arm =>
    obtain ⟨flat, rfl, hdec⟩ := processFunction_decodes h
    exact hflat flat (hdec.measured Arm.measures)

namespace ConstProp

theorem access_direct_substituteAndFold {op : Instruction} (haccess : accessed op = none)
    (hdirect : op ≠ .call .indirect) (s : ConstState) :
    accessed (substituteAndFold op s) = none ∧ substituteAndFold op s ≠ .call .indirect := by
  have hfold : ∀ {bin : Varnode → Varnode → Varnode → Instruction} {dest lhs rhs f},
      (∀ a b, accessed (bin dest a b) = none ∧ bin dest a b ≠ .call .indirect) →
      accessed (foldBinop bin dest lhs rhs s f) = none ∧
        foldBinop bin dest lhs rhs s f ≠ .call .indirect := by
    rintro bin dest lhs rhs f hbin
    unfold foldBinop foldOrKeep
    split
    · exact ⟨rfl, nofun⟩
    · exact hbin _ _
  cases op with
  | load | store => cases haccess
  | intAdd => exact hfold fun _ _ => ⟨rfl, nofun⟩
  | intSub => exact hfold fun _ _ => ⟨rfl, nofun⟩
  | intEqual => exact hfold fun _ _ => ⟨rfl, nofun⟩
  | intNotEqual => exact hfold fun _ _ => ⟨rfl, nofun⟩
  | intSless => exact hfold fun _ _ => ⟨rfl, nofun⟩
  | intSlessEqual => exact hfold fun _ _ => ⟨rfl, nofun⟩
  | call => exact ⟨rfl, hdirect⟩
  | _ => exact ⟨rfl, nofun⟩

theorem measured_substituteAndFold {op : Instruction} (h : Measured op) (s : ConstState) :
    Measured (substituteAndFold op s) where
  dest v hv := h.dest v (by rwa [opDest_substituteAndFold] at hv)
  operand v hv := by
    have hrewrites := substituteAndFold_rewrites op s
    generalize substituteAndFold op s = rewritten at hv hrewrites
    cases hrewrites with
    | @folded dest _ _ _ _ _ bin =>
      obtain rfl := List.mem_singleton.mp hv
      have hdest : op.opDest = some dest := by cases bin <;> rfl
      exact h.dest dest hdest
    | kept _ hoperands =>
      rw [hoperands] at hv
      obtain ⟨u, hu, rfl⟩ := List.mem_map.mp hv
      rw [size_substitute]
      exact h.operand u hu
  access := (access_direct_substituteAndFold h.access h.direct s).1
  direct := (access_direct_substituteAndFold h.access h.direct s).2

end ConstProp

/-- Where no memory is accessed nothing is inferred. -/
theorem Types.run_of_unaccessed {f : Function} (hempty : f.types = ∅)
    (h : ∀ op ∈ programOps f, accessed op = none) : run f = .ok f := by
  have hclosed : ClosedUnder (programOps f) ∅ := by
    constructor
    · intro dest addr hop
      cases h _ hop
    · intro addr src hop
      cases h _ hop
    · rintro _ _ _ - (hin | hin) <;> exact hin
    · rintro _ _ _ - (hin | hin) <;> exact hin
    · exact fun _ _ _ hin => hin
    · rintro _ _ - ⟨_, -, hin⟩
      exact hin
  obtain ⟨n, hrun, hleast⟩ := run_pointers hempty
  have htyped := (inferAll_pointers (scans n (programOps f))).2
  have hnone : inferAll (scans n (programOps f)) ∅ = ∅ := by
    refine Finmap.ext_lookup fun l => ?_
    rw [Finmap.lookup_empty, Finmap.lookup_eq_none]
    intro hl
    have hreached : l ∈ rules.reached (scans n (programOps f)) := htyped ▸ hl
    exact hleast.2 hclosed hreached
  rw [hrun, hnone, ← hempty]

end Decompiler
