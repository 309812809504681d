import Decompiler.ConstProp.Shape
import Decompiler.ConstProp.Straight

/-! # The pass keeps operations well-formed

Every state of the analysis is right about some content of the cells: each of its constants fits
the location it is known for. So the literals that the pass puts in fit, and what it leaves
computes from a location at least.
-/

namespace Decompiler

namespace Dataflow

variable {S : Type*} [Lattice S] [DecidableEq S] {f : Function} {transfer : TransferFunction S}
  {K : S → Prop}

omit [DecidableEq S] in
theorem inOf_of_closed (htop : K Lattice.top)
    (hmerge : ∀ s t, K s → K t → K (Lattice.merge s t)) (b : BasicBlock)
    {x : Address → S} (hx : ∀ a, K (x a)) : K (inOf b fun p => some (x p)) := by
  cases hp : b.predecessors with
  | nil =>
    rw [inOf_eq_top hp]
    exact htop
  | cons p l =>
    rw [inOf_eq_foldl hp]
    exact List.foldlRecOn l _ (hx p) fun s hs q _ => hmerge s _ hs (hx q)

theorem solveForward_blockIn (htop : K Lattice.top)
    (hmerge : ∀ s t, K s → K t → K (Lattice.merge s t))
    (hop : ∀ b ∈ f.blocks, ∀ op ∈ b.ops, ∀ s, K s → K (transfer.transferInstruction op s))
    {fuel : ℕ} {r : DataflowResult S} (h : solveForward fuel f transfer = .ok r) {a : Address}
    {s : S} (hs : r.blockIn a = some s) : K s := by
  have hin : ∀ (b : BasicBlock) {o : Address → Option S}, (∀ a, K (outs o a)) → K (inOf b o) := by
    intro b o ho
    rw [← inOf_outs]
    exact inOf_of_closed htop hmerge b ho
  have hstep : ∀ st st', ((∀ a s, st.blockIn a = some s → K s) ∧ ∀ a, K (outs st.blockOut a)) →
      solveStep f transfer st = some st' →
        (∀ a s, st'.blockIn a = some s → K s) ∧ ∀ a, K (outs st'.blockOut a) := by
    rintro st st' ⟨hi, ho⟩ hstep
    have hupdate : ∀ (b : BasicBlock) (addr a : Address) (s : S),
        Function.update st.blockIn addr (some (inOf b st.blockOut)) a = some s → K s := by
      intro b addr a s hs
      by_cases ha : a = addr
      · subst ha
        rw [Function.update_self] at hs
        exact Option.some.inj hs ▸ hin b ho
      · rw [Function.update_of_ne ha] at hs
        exact hi a s hs
    obtain ⟨addr, queue, -, hcase⟩ := solveStep_cases hstep
    rcases hcase with ⟨-, rfl⟩ | ⟨b, hb, ⟨-, rfl⟩ | ⟨-, rfl⟩⟩
    · exact ⟨hi, ho⟩
    · exact ⟨hupdate b addr, ho⟩
    · refine ⟨hupdate b addr, fun a => ?_⟩
      rw [outs_update]
      by_cases ha : a = addr
      · subst ha
        rw [Function.update_self, ← equations_outs hb, equations, hb]
        exact outOf_of_closed htop hmerge (hop b (mem_of_blockByAddr hb).1) ho
      · rw [Function.update_of_ne ha]
        exact ho a
  obtain ⟨st, ⟨hst, -⟩, -, rfl⟩ := solveLoop_invariant hstep
    ⟨fun a s hs => by simp [solveInit] at hs, fun a => by rw [outs_init]; exact htop⟩ h
  exact hst a s hs

end Dataflow

namespace ConstProp

open Dataflow

variable {s t : ConstState}

def Realized (s : ConstState) : Prop := ∃ σ : State, σ.Bounded ∧ Agrees s σ

theorem realized_top : Realized Lattice.top := by
  refine ⟨.zero, State.bounded_zero, fun v hv x hx => ?_⟩
  rw [ConstState.get_top hv] at hx
  cases hx

theorem Realized.merge (hs : Realized s) (ht : Realized t) : Realized (s.merge t) := by
  obtain ⟨σ, hσ, hs⟩ := hs
  obtain ⟨τ, hτ, ht⟩ := ht
  let cells (l : Location) : ℕ := if s.get l = .top then τ.cells l else σ.cells l
  refine ⟨{ σ with cells := cells }, fun l => ?_, fun v hv x hx => ?_⟩
  · dsimp only [cells]
    split
    · exact hτ l
    · exact hσ l
  · have hread : ∀ ρ : State, ρ.read v = ρ.cells v.location := fun ρ => if_neg hv
    rw [ConstState.get_merge] at hx
    rw [hread]
    dsimp only [cells]
    split
    case isTrue htop =>
      rw [htop] at hx
      have hget : t.get v.location = .const x := by
        cases hg : t.get v.location with
        | _ => rw [hg] at hx; exact hx
      rw [← hread]
      exact ht v hv x hget
    case isFalse htop =>
      have hget : s.get v.location = .const x := by
        cases hg : s.get v.location with
        | top => exact absurd hg htop
        | notConstant =>
          rw [hg] at hx
          cases hg' : t.get v.location <;> rw [hg'] at hx <;> cases hx
        | const y =>
          rw [hg] at hx
          cases hg' : t.get v.location with
          | top =>
            rw [hg'] at hx
            exact hx
          | notConstant =>
            rw [hg'] at hx
            cases hx
          | const z =>
            rw [hg', ConstValue.merge] at hx
            split at hx
            · exact hx
            · cases hx
      rw [← hread]
      exact hs v hv x hget

theorem Realized.transferInstruction (hs : Realized s) {op : Instruction} (hop : op.WellFormed) :
    Realized (transferInstruction op s) := by
  obtain ⟨σ, hσ, hs⟩ := hs
  obtain ⟨σ', hexec⟩ := hop.exists_exec (fun _ σ => σ) σ
  exact ⟨σ', bounded_exec (fun _ _ => rfl) hσ hexec, hs.step (fun _ _ => rfl) hσ hop hexec⟩

theorem Realized.wellFormed (hs : Realized s) {op : Instruction} (hop : op.WellFormed) :
    (substituteAndFold op s).WellFormed := by
  obtain ⟨σ, hσ, hs⟩ := hs
  exact wellFormed_substituteAndFold hs hσ hop

theorem exists_binop {op : Instruction} (hop : op.WellFormed) (hdest : op.opDest.isSome)
    (htwo : op.operands.length = 2) : ∃ dest lhs rhs f, Binop op dest lhs rhs f := by
  cases op with
  | intAdd dest lhs rhs => exact ⟨_, _, _, _, .intAdd dest lhs rhs⟩
  | intSub dest lhs rhs => exact ⟨_, _, _, _, .intSub dest lhs rhs⟩
  | intEqual dest lhs rhs => exact ⟨_, _, _, _, .intEqual dest lhs rhs⟩
  | intNotEqual dest lhs rhs => exact ⟨_, _, _, _, .intNotEqual dest lhs rhs⟩
  | intSless dest lhs rhs => exact ⟨_, _, _, _, .intSless dest lhs rhs⟩
  | intSlessEqual dest lhs rhs => exact ⟨_, _, _, _, .intSlessEqual dest lhs rhs⟩
  | phi dest srcs => exact absurd hop id
  | copy | load | cbranch => cases htwo
  | _ => cases hdest

/-- What is computed from two operands reads a location. -/
def Reads (op : Instruction) : Prop :=
  op.opDest.isSome → op.operands.length = 2 → ∃ v ∈ op.operands, v.space ≠ .constant

theorem exists_const_of_substitute {v : Varnode} (h : (substitute v s).space = .constant) :
    ∃ x, s.get v.location = .const x := by
  rcases substitute_cases v s with heq | ⟨x, hx, -⟩
  · rw [heq] at h
    exact ⟨v.offset, ConstState.get_of_constant s h⟩
  · exact ⟨x, hx⟩

theorem reads_substituteAndFold {op : Instruction} (hop : op.WellFormed) (s : ConstState) :
    Reads (substituteAndFold op s) := by
  intro hdest htwo
  have hrewrites := substituteAndFold_rewrites op s
  rw [opDest_substituteAndFold] at hdest
  generalize substituteAndFold op s = rewritten at htwo hrewrites
  cases hrewrites with
  | folded => cases htwo
  | kept unknown hoperands =>
    rw [hoperands, List.length_map] at htwo
    obtain ⟨dest, lhs, rhs, f, hbin⟩ := exists_binop hop hdest htwo
    rw [hoperands, hbin.operands_eq]
    by_contra hnone
    have hall : ∀ v ∈ [lhs, rhs].map (substitute · s), v.space = .constant := fun v hv =>
      by_contra fun hne => hnone ⟨v, hv, hne⟩
    obtain ⟨x, hx⟩ := exists_const_of_substitute (hall (substitute lhs s) (by simp))
    obtain ⟨y, hy⟩ := exists_const_of_substitute (hall (substitute rhs s) (by simp))
    exact unknown hbin hx hy

theorem Realized.rewriteOps {ops : List Instruction} (hs : Realized s)
    (hops : ∀ op ∈ ops, op.WellFormed) :
    ∀ op' ∈ rewriteOps ops s, ∃ op ∈ ops, ∃ t, Realized t ∧ op' = substituteAndFold op t := by
  induction ops generalizing s with
  | nil => exact fun _ h => absurd h List.not_mem_nil
  | cons op ops ih =>
    have hop := hops op List.mem_cons_self
    have hrest := ih (hs.transferInstruction hop) fun o ho => hops o (List.mem_cons_of_mem op ho)
    intro op' hop'
    rcases List.mem_cons.mp hop' with rfl | hop'
    · exact ⟨op, List.mem_cons_self, s, hs, rfl⟩
    · obtain ⟨o, ho, t, ht, rfl⟩ := hrest op' hop'
      exact ⟨o, List.mem_cons_of_mem op ho, t, ht, rfl⟩

theorem exists_of_mem_run {f g : Function}
    (hops : ∀ b ∈ f.blocks, ∀ op ∈ b.ops, op.WellFormed) (hrun : run f = .ok g) {b' : BasicBlock}
    (hb' : b' ∈ g.blocks) {op' : Instruction} (hop' : op' ∈ b'.ops) :
    ∃ b ∈ f.blocks, ∃ op ∈ b.ops, ∃ s, Realized s ∧ op' = substituteAndFold op s := by
  obtain ⟨r, hr, hg⟩ := Fallible.bind_eq_ok.mp hrun
  obtain rfl := Except.ok.inj hg
  rw [rewrite_blocks] at hb'
  obtain ⟨b, hb, rfl⟩ := List.mem_map.mp hb'
  have hin : Realized ((r.blockIn b.startAddress).getD Lattice.top) := by
    cases hblock : r.blockIn b.startAddress with
    | none => exact realized_top
    | some s =>
      exact solveForward_blockIn realized_top (fun _ _ hs ht => hs.merge ht)
        (fun b hb op hop s hs => hs.transferInstruction (hops b hb op hop)) hr hblock
  rw [BasicBlock.ops, rewriteBlock, flatMap_rewriteInstructions] at hop'
  obtain ⟨op, hop, t, ht, rfl⟩ := hin.rewriteOps (hops b hb) op' hop'
  exact ⟨b, hb, op, hop, t, ht, rfl⟩

theorem wellFormed_of_run {f g : Function} (hops : ∀ b ∈ f.blocks, ∀ op ∈ b.ops, op.WellFormed)
    (hrun : run f = .ok g) : ∀ b ∈ g.blocks, ∀ op ∈ b.ops, op.WellFormed ∧ Reads op := by
  intro b hb op hop
  obtain ⟨b₀, hb₀, op₀, hop₀, s, hs, rfl⟩ := exists_of_mem_run hops hrun hb hop
  have hwf := hops b₀ hb₀ op₀ hop₀
  exact ⟨hs.wellFormed hwf, reads_substituteAndFold hwf s⟩

/-- The pass leaves well-formed operations, whatever the edges of the function: every literal fits
the operand it stands for, and no operation on two literals is left. -/
theorem run_wellFormed {f : Function} (hops : ∀ b ∈ f.blocks, ∀ op ∈ b.ops, op.WellFormed) :
    ∃ g, run f = .ok g ∧ ∀ b ∈ g.blocks, ∀ op ∈ b.ops, op.WellFormed ∧ Reads op := by
  obtain ⟨r, hr⟩ := solveForward_eq_ok f
  have hrun : run f = .ok (rewrite f r) := by rw [run, hr]; rfl
  exact ⟨_, hrun, wellFormed_of_run hops hrun⟩

/-- `r1 = 5; r2 = r1 + r3; r4 = r1 + 251` on registers of one byte, behind itself. -/
def literalLoop : Function :=
  let r (id : UInt64) := Varnode.new .register id 1
  { Function.new "literal_loop" 0 with
    blocks := [⟨0, [⟨0, [.copy (r 1) (.constant 5 1), .intAdd (r 2) (r 1) (r 3),
      .intAdd (r 4) (r 1) (.constant 251 1)]⟩], [0], [0]⟩] }

theorem run_wellFormed_literalLoop : ∃ g, run literalLoop = .ok g ∧
    ∀ b ∈ g.blocks, ∀ op ∈ b.ops, op.WellFormed ∧ Reads op := by
  refine run_wellFormed fun b hb op hop => ?_
  obtain rfl := List.mem_singleton.mp hb
  have hsized : ∀ v ∈ [Varnode.new .register 1 1, Varnode.new .register 3 1, Varnode.constant 5 1,
      Varnode.constant 251 1], v.Sized := by
    simp [Varnode.Sized, Varnode.new, Varnode.constant, modulus]
  simp only [BasicBlock.ops, List.flatMap_cons, List.flatMap_nil, List.append_nil,
    List.mem_cons, List.not_mem_nil, or_false] at hop
  rcases hop with rfl | rfl | rfl
  · exact ⟨by decide, hsized _ (by simp), rfl⟩
  · exact ⟨by decide, hsized _ (by simp), hsized _ (by simp), rfl, rfl⟩
  · exact ⟨by decide, hsized _ (by simp), hsized _ (by simp), rfl, rfl⟩

end ConstProp

end Decompiler
