import Decompiler.ConstProp.Preservation

/-! # Straight-line code

Inside a block the transfer function, the folding and the execution agree. From an analysis
state that is right about the cells, the rewritten operations do what the original ones do, they
are well-formed again, and the advanced analysis state stays right.
-/

namespace Decompiler.ConstProp

open Dataflow

/-- Every constant that the analysis knows for a location is the content of its cell. -/
def Agrees (s : ConstState) (σ : State) : Prop :=
  ∀ v : Varnode, v.space ≠ .constant → ∀ x, s.get v.location = .const x → σ.read v = x.toNat

def traceOps (callee : BranchTarget → State → State) :
    List Instruction → State → Option (State × List Control)
  | [], σ => some (σ, [])
  | op :: ops, σ => do
    let next ← op.exec callee σ
    let (last, decisions) ← traceOps callee ops next
    return (last, op.control σ :: decisions)

variable {callee : BranchTarget → State → State} {s : ConstState} {σ σ' : State}

theorem Agrees.right (h : Agrees s σ) (v : Varnode) : Right s σ v := by
  by_cases hv : v.space = .constant
  · exact right_of_constant hv
  · exact h v hv

theorem sized_substitute (h : Agrees s σ) (hσ : σ.Bounded) {v : Varnode} (hv : v.Sized) :
    (substitute v s).Sized := by
  rcases substitute_cases v s with hsub | ⟨x, hx, hsub⟩
  · rw [hsub]
    exact hv
  · rw [hsub]
    have hread := hσ.read_lt hv
    rw [h.right v x hx] at hread
    exact ⟨hv.1, hv.2.1, fun _ => hread⟩

theorem wellFormed_foldBinop {bin : Varnode → Varnode → Varnode → Instruction}
    {dest lhs rhs : Varnode} {f : UInt64 → UInt64 → UInt64}
    (hbin : Binop (bin dest lhs rhs) dest lhs rhs f) (hop : (bin dest lhs rhs).WellFormed)
    (hkeep : (bin dest (substitute lhs s) (substitute rhs s)).WellFormed)
    (hdest : 1 ≤ dest.size.toNat ∧ dest.size.toNat ≤ 8) :
    (foldBinop bin dest lhs rhs s f).WellFormed := by
  rcases foldBinop_cases bin dest lhs rhs s f with hf | ⟨a, b, -, -, hf⟩
  · rw [hf]
    exact hkeep
  · rw [hf]
    exact ⟨hbin.dest_ne_constant hop, ⟨hdest.1, hdest.2, fun _ => hbin.result_lt hop a b⟩, rfl⟩

theorem wellFormed_substituteAndFold (h : Agrees s σ) (hσ : σ.Bounded) {op : Instruction}
    (hop : op.WellFormed) : (substituteAndFold op s).WellFormed := by
  have hsub : ∀ {v : Varnode}, v.Sized → (substitute v s).Sized := sized_substitute h hσ
  cases op with
  | copy dest src =>
    obtain ⟨hd, hsrc, hsize⟩ := hop
    exact ⟨hd, hsub hsrc, hsize.trans (size_substitute src s).symm⟩
  | load dest addr => exact ⟨hop.1, hop.2.1, hsub hop.2.2⟩
  | store addr src => exact ⟨hsub hop.1, hsub hop.2⟩
  | intAdd dest lhs rhs | intSub dest lhs rhs =>
    obtain ⟨hd, hl, hr, hrl, hdl⟩ := hop
    apply wellFormed_foldBinop
    · constructor
    · exact ⟨hd, hl, hr, hrl, hdl⟩
    · exact ⟨hd, hsub hl, hsub hr, by simpa using hrl, by simpa using hdl⟩
    · exact ⟨hdl ▸ hl.1, hdl ▸ hl.2.1⟩
  | intEqual dest lhs rhs | intNotEqual dest lhs rhs | intSless dest lhs rhs
  | intSlessEqual dest lhs rhs =>
    obtain ⟨hd, hds, hl, hr, hrl⟩ := hop
    apply wellFormed_foldBinop
    · constructor
    · exact ⟨hd, hds, hl, hr, hrl⟩
    · exact ⟨hd, hds, hsub hl, hsub hr, by simpa using hrl⟩
    · exact ⟨hds.1, hds.2.1⟩
  | cbranch condition target => exact hsub hop
  | phi dest srcs => exact absurd hop id
  | branch | call | ret | nop => trivial

section Step

variable (hcallee : ∀ target σ, (callee target σ).cells = σ.cells)

include hcallee

theorem cells_exec_of_callee {op : Instruction} (hdest : op.opDest = none)
    (hexec : op.exec callee σ = some σ') : σ'.cells = σ.cells := by
  by_cases hcall : ∃ target, op = .call target
  · obtain ⟨target, rfl⟩ := hcall
    rw [← Option.some.inj hexec]
    exact hcallee target σ
  · exact Instruction.cells_exec hdest (fun target heq => hcall ⟨target, heq⟩) hexec

theorem Agrees.step (h : Agrees s σ) (hσ : σ.Bounded) {op : Instruction} (hop : op.WellFormed)
    (hexec : op.exec callee σ = some σ') : Agrees (transferInstruction op s) σ' := by
  have hright : ∀ v ∈ op.operands, Right s σ v := fun v _ => h.right v
  intro v hv x hx
  rcases transferInstruction_eq op s with ⟨htransfer, hdest⟩ | ⟨dest, value, hdest, htransfer⟩
  · rw [htransfer] at hx
    rw [State.read, cells_exec_of_callee hcallee hdest hexec]
    exact h v hv x hx
  · have hdc := hop.dest_ne_constant hdest
    by_cases hloc : v.location = dest.location
    · have hread := right_dest hop hσ hright hexec hdest x (hloc ▸ hx)
      rw [State.read, if_neg hdc] at hread
      rwa [State.read, if_neg hv, hloc]
    · obtain ⟨content, rfl⟩ := Instruction.exec_eq_write hdest hexec
      rw [htransfer, ConstState.get_set_of_ne s value hloc] at hx
      rw [State.read, if_neg hv, State.cells_write_of_ne σ hloc]
      have hread := h v hv x hx
      rwa [State.read, if_neg hv] at hread

theorem bounded_exec (hσ : σ.Bounded) {op : Instruction} (hexec : op.exec callee σ = some σ') :
    σ'.Bounded := by
  apply hσ.exec (fun target _ l => ?_) hexec
  rw [hcallee]
  exact hσ l

/-- Straight-line code in step with the analysis: the rewritten operations do what the original
ones do up to the end, and they are well-formed. -/
theorem traceOps_rewriteOps {ops : List Instruction} (hops : ∀ op ∈ ops, op.WellFormed)
    (h : Agrees s σ) (hσ : σ.Bounded) :
    traceOps callee (rewriteOps ops s) σ = traceOps callee ops σ ∧
      ∀ op ∈ rewriteOps ops s, op.WellFormed := by
  induction ops generalizing s σ with
  | nil => exact ⟨rfl, List.forall_mem_nil _⟩
  | cons op ops ih =>
    obtain ⟨hop, hrest⟩ := List.forall_mem_cons.mp hops
    have hright : ∀ v ∈ op.operands, Right s σ v := fun v _ => h.right v
    obtain ⟨next, hexec⟩ := hop.exists_exec callee σ
    obtain ⟨htrace, hwf⟩ := ih hrest (h.step hcallee hσ hop hexec) (bounded_exec hcallee hσ hexec)
    rw [rewriteOps]
    constructor
    · unfold traceOps
      rw [exec_substituteAndFold hop hσ hright, control_substituteAndFold hright, hexec]
      simp only [Option.bind_eq_bind, Option.bind_some, htrace]
    · exact List.forall_mem_cons.mpr ⟨wellFormed_substituteAndFold h hσ hop, hwf⟩

theorem exists_traceOps_agrees {ops : List Instruction} (hops : ∀ op ∈ ops, op.WellFormed)
    (h : Agrees s σ) (hσ : σ.Bounded) (i : ℕ) : ∃ τ decisions,
      traceOps callee (ops.take i) σ = some (τ, decisions) ∧ Agrees (after ops s i) τ := by
  induction ops generalizing s σ i with
  | nil =>
    rw [List.take_nil]
    exact ⟨σ, [], rfl, by simpa [after] using h⟩
  | cons op ops ih =>
    obtain ⟨hop, hrest⟩ := List.forall_mem_cons.mp hops
    cases i with
    | zero => exact ⟨σ, [], rfl, h⟩
    | succ i =>
      obtain ⟨next, hexec⟩ := hop.exists_exec callee σ
      obtain ⟨τ, decisions, htrace, hagrees⟩ :=
        ih hrest (h.step hcallee hσ hop hexec) (bounded_exec hcallee hσ hexec) i
      refine ⟨τ, op.control σ :: decisions, ?_, hagrees⟩
      rw [List.take_succ_cons, traceOps, hexec]
      simp only [Option.bind_eq_bind, Option.bind_some, htrace]
      rfl

end Step

/-- Transfer, folding and execution agree on straight-line code, from every analysis state that
is right about the cells. -/
theorem rewriteOps_agrees (hcallee : ∀ target σ, (callee target σ).cells = σ.cells)
    {ops : List Instruction} (hops : ∀ op ∈ ops, op.WellFormed) (hs : Agrees s σ)
    (hσ : σ.Bounded) :
    (∃ τ decisions, traceOps callee ops σ = some (τ, decisions) ∧
        traceOps callee (rewriteOps ops s) σ = some (τ, decisions)) ∧
      (∀ op ∈ rewriteOps ops s, op.WellFormed) ∧
      ∀ i, ∃ τ decisions, traceOps callee (ops.take i) σ = some (τ, decisions) ∧
        Agrees (after ops s i) τ := by
  obtain ⟨htrace, hwf⟩ := traceOps_rewriteOps hcallee hops hs hσ
  refine ⟨?_, hwf, exists_traceOps_agrees hcallee hops hs hσ⟩
  obtain ⟨τ, decisions, hall, -⟩ := exists_traceOps_agrees hcallee hops hs hσ ops.length
  rw [List.take_length] at hall
  exact ⟨τ, decisions, hall, htrace.trans hall⟩

def addAndTest : List Instruction :=
  [.intAdd (.register 0 4 "EAX") (.register 0 4 "EAX") (.constant 3 4),
    .intEqual (.register 1000 1 "ZF") (.register 0 4 "EAX") (.constant 8 4),
    .cbranch (.register 1000 1 "ZF") (.absolute 0)]

def knowsFive : ConstState := ConstState.set Lattice.top (Varnode.register 0 4 "EAX").location
  (.const 5)

theorem rewriteOps_agrees_addAndTest :
    (∃ τ decisions, traceOps (fun _ σ => σ) addAndTest
        (State.zero.write (.register 0 4 "EAX") 5) = some (τ, decisions) ∧
      traceOps (fun _ σ => σ) (rewriteOps addAndTest knowsFive)
        (State.zero.write (.register 0 4 "EAX") 5) = some (τ, decisions)) ∧
      (∀ op ∈ rewriteOps addAndTest knowsFive, op.WellFormed) ∧
      ∀ i, ∃ τ decisions, traceOps (fun _ σ => σ) (addAndTest.take i)
          (State.zero.write (.register 0 4 "EAX") 5) = some (τ, decisions) ∧
        Agrees (after addAndTest knowsFive i) τ := by
  apply rewriteOps_agrees (fun _ _ => rfl)
  · have hsized : ∀ (id : UInt64) (size : UInt8) (name : String), 1 ≤ size.toNat →
        size.toNat ≤ 8 → (Varnode.register id size name).Sized := fun _ _ _ h1 h8 =>
      ⟨h1, h8, nofun⟩
    have hlit : ∀ x : UInt64, x.toNat < 2 ^ 32 → (Varnode.constant x 4).Sized := fun _ hx =>
      ⟨Nat.le_of_ble_eq_true rfl, Nat.le_of_ble_eq_true rfl, fun _ => hx⟩
    have heax := hsized 0 4 "EAX" (by decide) (by decide)
    have hzf := hsized 1000 1 "ZF" (by decide) (by decide)
    intro op hop
    simp only [addAndTest, List.mem_cons, List.not_mem_nil, or_false] at hop
    rcases hop with rfl | rfl | rfl
    · exact ⟨nofun, heax, hlit 3 (by decide), rfl, rfl⟩
    · exact ⟨nofun, hzf, heax, hlit 8 (by decide), rfl⟩
    · exact hzf
  · intro v hv x hx
    have heax : (Varnode.register 0 4 "EAX").location.space ≠ .constant := by decide
    by_cases hloc : v.location = (Varnode.register 0 4 "EAX").location
    · rw [hloc, knowsFive, ConstState.get_set_self _ heax] at hx
      obtain rfl := ConstValue.const.inj hx
      rw [State.read, if_neg hv, hloc]
      simp [State.write, modulus]
      decide
    · rw [knowsFive, ConstState.get_set_of_ne _ _ hloc, ConstState.get_top hv] at hx
      cases hx
  · exact State.bounded_zero.write _ _

end Decompiler.ConstProp
