import Mathlib.Order.Lattice
import Decompiler.Dataflow.Termination

/-! # The greatest solution

Over a lattice that satisfies the laws of the source, `merge` is the meet of an
order with greatest element `top`. The solver then returns, and its result is the
greatest solution of the dataflow equations.
-/

namespace Decompiler.Dataflow

/-- The laws the source asks of a lattice. -/
class LawfulLattice (S : Type*) [Lattice S] : Prop where
  merge_comm : ∀ a b : S, Lattice.merge a b = Lattice.merge b a
  merge_assoc : ∀ a b c : S,
    Lattice.merge (Lattice.merge a b) c = Lattice.merge a (Lattice.merge b c)
  merge_self : ∀ a : S, Lattice.merge a a = a
  merge_top : ∀ a : S, Lattice.merge a Lattice.top = a

/-- The order of a lattice: `a` carries at least what `b` rules out. -/
def Below {S : Type*} [Lattice S] (a b : S) : Prop := Lattice.merge a b = a

/-- The equations of the analysis: IN is the merge of the predecessors' OUT states,
`top` without predecessors, and OUT is IN pushed through the operations in order. -/
structure IsSolution {S : Type*} [Lattice S] (f : Function) (transfer : TransferFunction S)
    (blockIn blockOut : Address → S) : Prop where
  in_eq : ∀ b ∈ f.blocks, blockIn b.startAddress =
    (b.predecessors.map blockOut).foldr Lattice.merge Lattice.top
  out_eq : ∀ b ∈ f.blocks, blockOut b.startAddress =
    b.ops.foldl (fun s op => transfer.transferInstruction op s) (blockIn b.startAddress)

section Order

variable {S : Type*} [Lattice S] [LawfulLattice S]

open LawfulLattice

/-- The order in which `merge` is the meet. -/
instance instSemilatticeInf : SemilatticeInf S where
  le := Below
  le_refl := merge_self
  le_trans a b c (hab : Lattice.merge a b = a) (hbc : Lattice.merge b c = b) :=
    show Lattice.merge a c = a by rw [← hab, merge_assoc, hbc]
  le_antisymm a b (hab : Lattice.merge a b = a) (hba : Lattice.merge b a = b) := by
    rw [← hab, merge_comm, hba]
  inf := Lattice.merge
  inf_le_left a b := show Lattice.merge (Lattice.merge a b) a = _ by
    rw [merge_comm, ← merge_assoc, merge_self]
  inf_le_right a b := show Lattice.merge (Lattice.merge a b) b = _ by
    rw [merge_assoc, merge_self]
  le_inf a b c (hab : Lattice.merge a b = a) (hac : Lattice.merge a c = a) :=
    show Lattice.merge a (Lattice.merge b c) = a by rw [← merge_assoc, hab, hac]

theorem below_iff_le {a b : S} : Below a b ↔ a ≤ b := Iff.rfl

theorem le_top (a : S) : a ≤ Lattice.top := merge_top a

theorem merge_le_merge {a b c d : S} (hab : a ≤ b) (hcd : c ≤ d) :
    Lattice.merge a c ≤ Lattice.merge b d :=
  inf_le_inf hab hcd

theorem foldr_merge_mono {l : List Address} {x y : Address → S} (h : x ≤ y) :
    (l.map x).foldr Lattice.merge Lattice.top ≤ (l.map y).foldr Lattice.merge Lattice.top := by
  induction l with
  | nil => exact le_refl _
  | cons a l ih => exact merge_le_merge (h a) ih

theorem inOf_eq_foldr (b : BasicBlock) (x : Address → S) :
    inOf b (fun p => some (x p)) = (b.predecessors.map x).foldr Lattice.merge Lattice.top := by
  have key : ∀ (l : List Address) (a : S), l.foldl (fun acc q => Lattice.merge acc (x q)) a =
      Lattice.merge a ((l.map x).foldr Lattice.merge Lattice.top) := by
    intro l
    induction l with
    | nil => exact fun a => (merge_top a).symm
    | cons p l ih =>
      intro a
      rw [List.foldl_cons, ih, List.map_cons, List.foldr_cons, merge_assoc]
  cases hp : b.predecessors with
  | nil => rw [inOf_eq_top hp]; rfl
  | cons p l => rw [inOf_eq_foldl hp, key]; rfl

end Order

section Solution

variable {S : Type*} [Lattice S] [LawfulLattice S] {f : Function}
  {transfer : TransferFunction S}

theorem lawful_equations_mono (hmono : ∀ op, Monotone (transfer.transferInstruction op))
    (a : Address) : Monotone (equations f transfer a) :=
  equations_mono (fun _ _ _ _ => merge_le_merge) hmono a

theorem IsSolution.equations_eq (hnd : (f.blocks.map BasicBlock.startAddress).Nodup)
    (hrev : EdgesReversed f) {blockIn blockOut : Address → S}
    (h : IsSolution f transfer blockIn blockOut) :
    ∃ x : Address → S, (∀ b ∈ f.blocks, x b.startAddress = blockOut b.startAddress) ∧
      (∀ a, x a = equations f transfer a x) ∧
      ∀ b ∈ f.blocks, (b.predecessors.map x).foldr Lattice.merge Lattice.top =
        blockIn b.startAddress := by
  classical
  set x : Address → S := fun a => if (blockByAddr f a).isSome then blockOut a else Lattice.top
    with hx
  have hxb : ∀ b ∈ f.blocks, x b.startAddress = blockOut b.startAddress := fun b hb => by
    simp [hx, (blockByAddr_eq_some hnd).mpr ⟨hb, rfl⟩]
  have hin : ∀ b ∈ f.blocks, (b.predecessors.map x).foldr Lattice.merge Lattice.top =
      blockIn b.startAddress := by
    intro b hb
    rw [h.in_eq b hb]
    refine congrArg (List.foldr _ _) (List.map_congr_left fun p hp => ?_)
    obtain ⟨c, hc, rfl, -⟩ := (hrev b hb p).mp hp
    exact hxb c hc
  refine ⟨x, hxb, fun a => ?_, hin⟩
  unfold equations
  split
  case h_1 b hb =>
    obtain ⟨hbm, rfl⟩ := (blockByAddr_eq_some hnd).mp hb
    rw [hxb b hbm, h.out_eq b hbm, outOf, transferBlock_eq_foldl, ← inOf, inOf_eq_foldr,
      hin b hbm]
  case h_2 hb => simp [hx, hb]

/-- What the solver keeps: it is above its own equations, and above every solution. -/
structure AboveSolutions (f : Function) (transfer : TransferFunction S) (st : SolverState S) :
    Prop where
  lowering : Lowering f transfer st
  above : ∀ y : Address → S, (∀ a, y a = equations f transfer a y) → y ≤ outs st.blockOut

structure IsGreatestSolution (f : Function) (transfer : TransferFunction S)
    (blockIn blockOut : Address → S) : Prop extends
    IsSolution f transfer blockIn blockOut where
  greatest : ∀ blockIn' blockOut' : Address → S, IsSolution f transfer blockIn' blockOut' →
    ∀ b ∈ f.blocks, Below (blockIn' b.startAddress) (blockIn b.startAddress) ∧
      Below (blockOut' b.startAddress) (blockOut b.startAddress)

theorem AboveSolutions.isGreatestSolution (hnd : (f.blocks.map BasicBlock.startAddress).Nodup)
    (hrev : EdgesReversed f) {st : SolverState S} (h : AboveSolutions f transfer st)
    (hq : st.queue = []) :
    IsGreatestSolution f transfer (outs st.blockIn) (outs st.blockOut) := by
  have hsolved := h.lowering.consistent.solved hq
  have hin : ∀ b ∈ f.blocks, outs st.blockIn b.startAddress = inOf b st.blockOut := fun b hb => by
    rw [outs, (hsolved b hb).1]
    rfl
  have hfold : ∀ b ∈ f.blocks, inOf b st.blockOut =
      (b.predecessors.map (outs st.blockOut)).foldr Lattice.merge Lattice.top := fun b _ => by
    rw [← inOf_outs, inOf_eq_foldr]
  refine ⟨⟨fun b hb => (hin b hb).trans (hfold b hb), fun b hb => ?_⟩, fun i o hio b hb => ?_⟩
  · rw [hin b hb, outs, (hsolved b hb).2, ← transferBlock_eq_foldl]
    rfl
  · obtain ⟨x, hxb, hx, hxin⟩ := hio.equations_eq hnd hrev
    have hle := h.above x hx
    constructor
    · rw [hin b hb, hfold b hb, ← hxin b hb]
      exact foldr_merge_mono hle
    · rw [← hxb b hb]
      exact hle _

omit [LawfulLattice S] in
theorem IsSolution.perm {g : Function} (h : g.blocks.Perm f.blocks) {i o : Address → S}
    (hs : IsSolution f transfer i o) : IsSolution g transfer i o :=
  ⟨fun b hb => hs.in_eq b (h.mem_iff.mp hb), fun b hb => hs.out_eq b (h.mem_iff.mp hb)⟩

theorem IsGreatestSolution.eq_of_perm {g : Function} (h : g.blocks.Perm f.blocks)
    {i o i' o' : Address → S} (hf : IsGreatestSolution f transfer i o)
    (hg : IsGreatestSolution g transfer i' o') {b : BasicBlock} (hb : b ∈ f.blocks) :
    i' b.startAddress = i b.startAddress ∧ o' b.startAddress = o b.startAddress := by
  have hle := hf.greatest i' o' (hg.toIsSolution.perm h.symm) b hb
  have hge := hg.greatest i o (hf.toIsSolution.perm h) b (h.mem_iff.mpr hb)
  exact ⟨le_antisymm (below_iff_le.mp hle.1) hge.1, le_antisymm (below_iff_le.mp hle.2) hge.2⟩

variable [DecidableEq S]

theorem AboveSolutions.step (hnd : (f.blocks.map BasicBlock.startAddress).Nodup)
    (hrev : EdgesReversed f) (hmono : ∀ op, Monotone (transfer.transferInstruction op))
    {st st' : SolverState S} (h : AboveSolutions f transfer st)
    (hs : solveStep f transfer st = some st') : AboveSolutions f transfer st' where
  lowering := h.lowering.step hnd hrev (lawful_equations_mono hmono) hs
  above y hy := le_outs_step (lawful_equations_mono hmono) (fun a => (hy a).le)
    h.lowering.descending.hasOuts hs (h.above y hy)

/-- The solver ends with the maps `blockIn` and `blockOut` at the blocks of `f`. -/
def SolvesTo (f : Function) (transfer : TransferFunction S) (blockIn blockOut : Address → S) :
    Prop :=
  ∃ N r, (∀ fuel ≥ N, solveForward fuel f transfer = .ok r) ∧
    ∀ b ∈ f.blocks, r.blockIn b.startAddress = some (blockIn b.startAddress) ∧
      r.blockOut b.startAddress = some (blockOut b.startAddress)

theorem exists_isGreatestSolution (hnd : (f.blocks.map BasicBlock.startAddress).Nodup)
    (hrev : EdgesReversed f) (hwf : WellFounded fun a b : S => Below a b ∧ a ≠ b)
    (hmono : ∀ op (a b : S), Below a b →
      Below (transfer.transferInstruction op a) (transfer.transferInstruction op b)) :
    ∃ blockIn blockOut : Address → S, IsGreatestSolution f transfer blockIn blockOut ∧
      SolvesTo f transfer blockIn blockOut := by
  have : WellFoundedLT S := ⟨Subrelation.wf (fun h => ⟨h.le, h.ne⟩) hwf⟩
  have hmono' : ∀ op, Monotone (transfer.transferInstruction op) := fun op a b => hmono op a b
  have hinit : AboveSolutions f transfer (solveInit f : SolverState S) :=
    ⟨lowering_init hnd le_top, fun y _ => by rw [outs_init]; exact fun a => le_top (y a)⟩
  obtain ⟨N, r, hr⟩ := hinit.lowering.descending.exists_solveLoop
    (lawful_equations_mono hmono')
  obtain ⟨st, hst, hq, rfl⟩ := solveLoop_invariant
    (fun _ _ hst hs => AboveSolutions.step hnd hrev hmono' hst hs) hinit hr
  refine ⟨_, _, hst.isGreatestSolution hnd hrev hq, N, _, fun fuel hN => solveLoop_mono hN hr,
    fun b hb => ?_⟩
  obtain ⟨hi, ho⟩ := hst.lowering.consistent.solved hq b hb
  exact ⟨by rw [outs, hi]; rfl, by rw [outs, ho]; rfl⟩

/-- The solver returns, its result is the greatest solution of the equations, and it
does not depend on the order of the blocks. -/
theorem solveForward_greatest (hnd : (f.blocks.map BasicBlock.startAddress).Nodup)
    (hrev : EdgesReversed f) (hwf : WellFounded fun a b : S => Below a b ∧ a ≠ b)
    (hmono : ∀ op (a b : S), Below a b →
      Below (transfer.transferInstruction op a) (transfer.transferInstruction op b)) :
    ∃ blockIn blockOut : Address → S, IsGreatestSolution f transfer blockIn blockOut ∧
      ∀ g : Function, g.blocks.Perm f.blocks → SolvesTo g transfer blockIn blockOut := by
  obtain ⟨i, o, hgreatest, -⟩ := exists_isGreatestSolution hnd hrev hwf hmono
  refine ⟨i, o, hgreatest, fun g hg => ?_⟩
  have hnd' : (g.blocks.map BasicBlock.startAddress).Nodup := (hg.map _).nodup_iff.mpr hnd
  have hrev' : EdgesReversed g := fun b hb a => by
    rw [hrev b (hg.mem_iff.mp hb) a]
    simp only [hg.mem_iff]
  obtain ⟨i', o', hgreatest', N, r, hr, hread⟩ := exists_isGreatestSolution hnd' hrev' hwf hmono
  refine ⟨N, r, hr, fun b hb => ?_⟩
  obtain ⟨hi, ho⟩ := hgreatest.eq_of_perm hg hgreatest' (hg.mem_iff.mp hb)
  rw [← hi, ← ho]
  exact hread b hb

end Solution

inductive Reachability where
  | top
  | reached
  deriving DecidableEq

def Reachability.merge : Reachability → Reachability → Reachability
  | .reached, _ | _, .reached => .reached
  | .top, .top => .top

instance : Lattice Reachability := ⟨.top, .merge⟩

instance : LawfulLattice Reachability where
  merge_comm a b := by cases a <;> cases b <;> rfl
  merge_assoc a b c := by cases a <;> cases b <;> cases c <;> rfl
  merge_self a := by cases a <;> rfl
  merge_top a := by cases a <;> rfl

def markReached : TransferFunction Reachability := ⟨fun _ _ => .reached⟩

/-- `entry -> {left, right} -> join` -/
def diamond : Function :=
  { Function.new "f" 0 with
    blocks := [
      ⟨0x0, [⟨0x0, [.cbranch (.constant 1 1) (.absolute 0x20)]⟩], [0x10, 0x20], []⟩,
      ⟨0x10, [⟨0x10, [.nop]⟩], [0x30], [0x0]⟩,
      ⟨0x20, [⟨0x20, [.nop]⟩], [0x30], [0x0]⟩,
      ⟨0x30, [⟨0x30, [.ret]⟩], [], [0x10, 0x20]⟩] }

theorem solveForward_greatest_diamond :
    ∃ blockIn blockOut, IsGreatestSolution diamond markReached blockIn blockOut ∧
      ∀ g : Function, g.blocks.Perm diamond.blocks → SolvesTo g markReached blockIn blockOut := by
  refine solveForward_greatest (by decide) ?_ ?_ fun _ _ _ _ => rfl
  · intro b hb a
    simp only [diamond, List.mem_cons, List.not_mem_nil, or_false] at hb
    rcases hb with rfl | rfl | rfl | rfl <;> simp [diamond, eq_comm]
  · have : Finite Reachability := .of_injective
      (fun r => match r with | .top => false | .reached => true)
      fun a b => by cases a <;> cases b <;> simp
    exact (wellFounded_lt (α := Reachability)).mono fun a b h => lt_of_le_of_ne h.1 h.2

end Decompiler.Dataflow
