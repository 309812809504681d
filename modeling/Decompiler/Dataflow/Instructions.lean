import Decompiler.Cfg.Correctness
import Decompiler.ConstProp.Shape
import Decompiler.Dataflow.Paths

/-! # The state before each instruction

Walking each block again from its IN state gives the states within the blocks. What is known before
an instruction holds on every path to it, and it is what the rewriting of constants uses there.
-/

namespace Decompiler.Dataflow

section States

variable {S : Type*}

def advance (transfer : TransferFunction S) (lis : List LiftedInstruction) (state : S) : S :=
  lis.foldl (fun state li =>
    li.ops.foldl (fun state op => transfer.transferInstruction op state) state) state

/-- The loop over the instructions of a block, each of which inserts the state before it. -/
def insertStates (transfer : TransferFunction S) :
    List LiftedInstruction → S → (Address → Option S) → Address → Option S
  | [], _, states => states
  | li :: lis, state, states =>
    insertStates transfer lis
      (li.ops.foldl (fun state op => transfer.transferInstruction op state) state)
      (Function.update states li.address (some state))

def instructionStates [Lattice S] (f : Function) (transfer : TransferFunction S)
    (result : DataflowResult S) : Address → Option S :=
  f.blocks.foldl (fun states block =>
    let state := (result.blockIn block.startAddress).getD Lattice.top
    insertStates transfer block.instructions state states) fun _ => none

variable (transfer : TransferFunction S)

theorem insertStates_of_notMem {lis : List LiftedInstruction} {a : Address}
    (ha : a ∉ lis.map LiftedInstruction.address) (s : S) (states : Address → Option S) :
    insertStates transfer lis s states a = states a := by
  induction lis generalizing s states with
  | nil => rfl
  | cons li lis ih =>
    rw [List.map_cons, List.mem_cons, not_or] at ha
    rw [insertStates, ih ha.2, Function.update_of_ne ha.1]

theorem insertStates_of_split {pre post : List LiftedInstruction} {li : LiftedInstruction}
    (hnd : ((pre ++ li :: post).map LiftedInstruction.address).Nodup) (s : S)
    (states : Address → Option S) :
    insertStates transfer (pre ++ li :: post) s states li.address =
      some (advance transfer pre s) := by
  induction pre generalizing s states with
  | nil =>
    have hpost : li.address ∉ post.map LiftedInstruction.address := (List.nodup_cons.mp hnd).1
    rw [List.nil_append, insertStates, insertStates_of_notMem transfer hpost,
      Function.update_self]
    rfl
  | cons first pre ih =>
    rw [List.cons_append, insertStates, ih (List.nodup_cons.mp hnd).2]
    rfl

variable [Lattice S]

theorem foldl_insertStates_of_notMem (result : DataflowResult S) {a : Address}
    {bs : List BasicBlock}
    (ha : a ∉ (bs.flatMap BasicBlock.instructions).map LiftedInstruction.address)
    (states : Address → Option S) :
    bs.foldl (fun states block => insertStates transfer block.instructions
      ((result.blockIn block.startAddress).getD Lattice.top) states) states a = states a := by
  induction bs generalizing states with
  | nil => rfl
  | cons b bs ih =>
    rw [List.flatMap_cons, List.map_append, List.mem_append, not_or] at ha
    rw [List.foldl_cons, ih ha.2, insertStates_of_notMem transfer ha.1]

/-- What is recorded for an instruction is the IN state of its block behind what precedes it. -/
theorem instructionStates_of_split {f : Function}
    (hnd : ((Cfg.stream f).map LiftedInstruction.address).Nodup) (result : DataflowResult S)
    {b : BasicBlock} (hb : b ∈ f.blocks) {pre post : List LiftedInstruction}
    {li : LiftedInstruction} (hsplit : b.instructions = pre ++ li :: post) :
    instructionStates f transfer result li.address =
      some (advance transfer pre ((result.blockIn b.startAddress).getD Lattice.top)) := by
  obtain ⟨front, back, hblocks⟩ := List.append_of_mem hb
  rw [Cfg.stream, hblocks, List.flatMap_append, List.flatMap_cons, List.map_append, List.map_append,
    List.nodup_append] at hnd
  obtain ⟨-, hnd, -⟩ := hnd
  obtain ⟨hnd, -, hdisjoint⟩ := List.nodup_append.mp hnd
  -- no later block records a state for the address again
  have hback : li.address ∉ (back.flatMap BasicBlock.instructions).map LiftedInstruction.address :=
    fun hlater => hdisjoint _ (by simp [hsplit]) _ hlater rfl
  rw [instructionStates, hblocks, List.foldl_append, List.foldl_cons,
    foldl_insertStates_of_notMem transfer result hback, hsplit,
    insertStates_of_split transfer (hsplit ▸ hnd)]

/-- The states in which the paths of `f` come to the instruction of a block behind `pre`. -/
def reaching (f : Function) (b : BasicBlock) (pre : List LiftedInstruction) : Set S :=
  {s | ∃ bs, IsPath f (bs ++ [b]) ∧ s = advance transfer pre (pathState transfer bs)}

end States

section Paths

variable {S : Type*} [Lattice S] [LawfulLattice S] {f : Function} {transfer : TransferFunction S}

theorem advance_mono (hmono : ∀ op, Monotone (transfer.transferInstruction op))
    (lis : List LiftedInstruction) : Monotone (advance transfer lis) :=
  transferBlock_mono hmono ⟨0, lis, [], []⟩

omit [LawfulLattice S] in
theorem Distributes.advance (h : Distributes transfer) (lis : List LiftedInstruction) (s t : S) :
    advance transfer lis (Lattice.merge s t) =
      Lattice.merge (advance transfer lis s) (advance transfer lis t) :=
  h.transferBlock ⟨0, lis, [], []⟩ s t

omit [LawfulLattice S] in
theorem advance_mem_reaching (hnd : (f.blocks.map BasicBlock.startAddress).Nodup)
    {b : BasicBlock} (hb : b ∈ f.blocks) (pre : List LiftedInstruction) {s : S}
    (hs : s ∈ arriving f transfer b.startAddress) :
    advance transfer pre s ∈ reaching transfer f b pre := by
  obtain ⟨bs, c, hcb, hpath, rfl⟩ := hs
  obtain rfl := List.inj_on_of_nodup_map hnd (hpath.mem c (by simp)) hb hcb
  exact ⟨bs, hpath, rfl⟩

theorem isMeetOf_reaching (hnd : (f.blocks.map BasicBlock.startAddress).Nodup)
    (hdist : Distributes transfer) {b : BasicBlock} (hb : b ∈ f.blocks)
    (pre : List LiftedInstruction) {s : S} (hs : IsMeetOf (arriving f transfer b.startAddress) s) :
    IsMeetOf (reaching transfer f b pre) (advance transfer pre s) := by
  obtain ⟨l, hl, rfl⟩ := hs
  by_cases hnil : l = []
  · subst hnil
    refine ⟨[advance transfer pre Lattice.top], ?_, by simp [LawfulLattice.merge_top]⟩
    simpa using advance_mem_reaching hnd hb pre (top_mem_arriving hb)
  · refine ⟨l.map (advance transfer pre), fun t ht => ?_, ?_⟩
    · obtain ⟨s, hs, rfl⟩ := List.mem_map.mp ht
      exact advance_mem_reaching hnd hb pre (hl s hs)
    · exact map_foldr_merge (hdist.advance pre) hnil

variable [DecidableEq S]

/-- What `instruction_states` records for an instruction is below the state of every path that
comes to it, and the greatest such state if the operations distribute over `merge`. -/
theorem instructionStates_meetOverPaths (hnd : (f.blocks.map BasicBlock.startAddress).Nodup)
    (haddrs : ((Cfg.stream f).map LiftedInstruction.address).Nodup)
    (hrev : EdgesReversed f) (hwf : WellFounded fun a b : S => Below a b ∧ a ≠ b)
    (hmono : ∀ op (a b : S), Below a b →
      Below (transfer.transferInstruction op a) (transfer.transferInstruction op b)) :
    ∃ N r, (∀ fuel ≥ N, solveForward fuel f transfer = .ok r) ∧
      ∀ b ∈ f.blocks, ∀ pre li post, b.instructions = pre ++ li :: post →
        ∃ s, instructionStates f transfer r li.address = some s ∧
          s ∈ lowerBounds (reaching transfer f b pre) ∧
          (Distributes transfer → IsGLB (reaching transfer f b pre) s) := by
  obtain ⟨i, o, hgreatest, hsolves⟩ := exists_isGreatestSolution hnd hrev hwf hmono
  obtain ⟨N, r, hr, hread⟩ := hsolves
  refine ⟨N, r, hr, ?_⟩
  intro b hb pre li post hsplit
  have hstate := instructionStates_of_split transfer haddrs r hb hsplit
  rw [(hread b hb).1, Option.getD_some] at hstate
  have hle : advance transfer pre (i b.startAddress) ∈ lowerBounds (reaching transfer f b pre) := by
    rintro s ⟨bs, hpath, rfl⟩
    have hmono' : ∀ op, Monotone (transfer.transferInstruction op) := fun op a b => hmono op a b
    exact advance_mono hmono' pre (hgreatest.le_pathState hrev hmono' hpath).1
  refine ⟨_, hstate, hle, fun hdist => IsMeetOf.isGLB ?_ hle⟩
  have hsolves : SolvesTo f transfer i o := ⟨N, r, hr, hread⟩
  exact isMeetOf_reaching hnd hdist hb pre
    (hsolves.isMeetOf hnd hrev hdist hgreatest.toIsSolution hb).1

/-- `entry -> head`, `head -> {head, exit}`, with several instructions in a block -/
def longSpin : Function :=
  { Function.new "f" 0 with
    blocks := [
      ⟨0x0, [⟨0x0, [.nop]⟩, ⟨0x1, [.nop]⟩], [0x10], []⟩,
      ⟨0x10, [⟨0x10, [.nop]⟩, ⟨0x11, [.cbranch (.constant 1 1) (.absolute 0x10)]⟩],
        [0x10, 0x20], [0x0, 0x10]⟩,
      ⟨0x20, [⟨0x20, [.nop]⟩, ⟨0x21, [.ret]⟩], [], [0x10]⟩] }

theorem instructionStates_meetOverPaths_longSpin :
    ∃ N r, (∀ fuel ≥ N, solveForward fuel longSpin markReached = .ok r) ∧
      ∀ b ∈ longSpin.blocks, ∀ pre li post, b.instructions = pre ++ li :: post →
        ∃ s, instructionStates longSpin markReached r li.address = some s ∧
          IsGLB (reaching markReached longSpin b pre) s := by
  have hrev : EdgesReversed longSpin := by
    intro b hb a
    simp only [longSpin, List.mem_cons, List.not_mem_nil, or_false] at hb
    rcases hb with rfl | rfl | rfl <;> simp [longSpin, eq_comm]
  obtain ⟨N, r, hr, hstates⟩ := instructionStates_meetOverPaths (by decide) (by decide) hrev
    Reachability.wellFounded_below markReached_mono
  refine ⟨N, r, hr, fun b hb pre li post hsplit => ?_⟩
  obtain ⟨s, hs, -, hgreatest⟩ := hstates b hb pre li post hsplit
  exact ⟨s, hs, hgreatest markReached_distributes⟩

end Paths

end Decompiler.Dataflow

namespace Decompiler.ConstProp

open Dataflow

theorem rewriteInstructions_eq_map (record : LiftedInstruction → ConstState)
    {lis : List LiftedInstruction} {s : ConstState}
    (hrecord : ∀ pre li post, lis = pre ++ li :: post →
      record li = advance constantPropagation pre s) :
    rewriteInstructions lis s =
      lis.map fun li => { li with ops := rewriteOps li.ops (record li) } := by
  induction lis generalizing s with
  | nil => rfl
  | cons li lis ih =>
    rw [rewriteInstructions, List.map_cons, hrecord [] li lis rfl]
    refine congrArg _ (ih fun pre next post hsplit => ?_)
    rw [hrecord (li :: pre) next post (by rw [hsplit]; rfl)]
    rfl

/-- Constant propagation rewrites each instruction by the state that `instruction_states` records
for it, although it never calls that function. -/
theorem rewrite_eq_instructionStates {f : Function}
    (haddrs : ((Cfg.stream f).map LiftedInstruction.address).Nodup)
    (result : DataflowResult ConstState) :
    rewrite f result = { f with blocks := f.blocks.map fun b =>
      { b with instructions := b.instructions.map fun li =>
          let state := (instructionStates f constantPropagation result li.address).getD Lattice.top
          { li with ops := rewriteOps li.ops state } } } := by
  refine congrArg (fun blocks => { f with blocks := blocks }) (List.map_congr_left fun b hb => ?_)
  refine congrArg (fun lis => { b with instructions := lis }) ?_
  refine rewriteInstructions_eq_map
    (fun li => (instructionStates f constantPropagation result li.address).getD Lattice.top) ?_
  intro pre li post hsplit
  rw [instructionStates_of_split constantPropagation haddrs result hb hsplit]
  rfl

/-- The constant that the first instruction assigns is recorded for the second. -/
theorem rewrite_eq_instructionStates_constantTest :
    ∃ result, solveForward 2 constantTest constantPropagation = .ok result ∧
      (instructionStates constantTest constantPropagation result 1).map
        (·.get (Varnode.register 0 4 "EAX").location) = some (.const 5) ∧
      rewrite constantTest result = { constantTest with blocks := constantTest.blocks.map fun b =>
        { b with instructions := b.instructions.map fun li =>
            let state := (instructionStates constantTest constantPropagation result
              li.address).getD Lattice.top
            { li with ops := rewriteOps li.ops state } } } := by
  have hsolve : ∃ result, solveForward 2 constantTest constantPropagation = .ok result ∧
      (instructionStates constantTest constantPropagation result 1).map
        (·.get (Varnode.register 0 4 "EAX").location) = some (.const 5) := by decide +kernel
  obtain ⟨result, hr, hstate⟩ := hsolve
  exact ⟨result, hr, hstate, rewrite_eq_instructionStates (by decide) result⟩

end Decompiler.ConstProp
