import Mathlib.Algebra.Order.BigOperators.Group.Finset
import Decompiler.ConstProp.Order
import Decompiler.Dataflow.Termination

/-! # The pass returns

Every OUT state of the analysis has entries at assigned locations only, so it can
descend three times at each of them. The fuel of the pass is therefore enough.
-/

namespace Decompiler.ConstProp

open Dataflow

/-- The distance of an entry from `notConstant`; a missing entry is the farthest. -/
def entryRank : WithTop ConstValue → ℕ
  | ⊤ => 3
  | (v : ConstValue) => v.rank

theorem entryRank_lt {a b : WithTop ConstValue} (h : a < b) : entryRank a < entryRank b := by
  cases a with
  | top => exact absurd h not_top_lt
  | coe v =>
    cases b with
    | top => cases v <;> simp [entryRank, ConstValue.rank]
    | coe w => exact ConstValue.rank_lt_rank (WithTop.coe_lt_coe.mp h)

theorem entryRank_le {a b : WithTop ConstValue} (h : a ≤ b) : entryRank a ≤ entryRank b := by
  rcases h.eq_or_lt with rfl | h
  · exact le_refl _
  · exact (entryRank_lt h).le

def SupportedBy (A : Finset Location) (s : ConstState) : Prop := ∀ k, s.entry k ≠ ⊤ → k ∈ A

def stateRank (A : Finset Location) (s : ConstState) : ℕ := ∑ k ∈ A, entryRank (s.entry k)

variable {A : Finset Location}

theorem stateRank_lt {s t : ConstState} (hs : SupportedBy A s) (h : s < t) :
    stateRank A s < stateRank A t := by
  obtain ⟨hle, k, hk⟩ := Pi.lt_def.mp (show s.entry < t.entry from h)
  exact Finset.sum_lt_sum (fun k _ => entryRank_le (hle k))
    ⟨k, hs k hk.ne_top, entryRank_lt hk⟩

theorem supportedBy_top : SupportedBy A Lattice.top := fun _ h => absurd rfl h

theorem SupportedBy.merge {s t : ConstState} (hs : SupportedBy A s) (ht : SupportedBy A t) :
    SupportedBy A (s.merge t) := by
  intro k hk
  rw [ConstState.entry_merge] at hk
  have hmem : k ∈ s.values.keys ∪ t.values.keys := by
    by_contra hmem
    exact hk (by simp [ConstState.mergeEntry, hmem]; rfl)
  rcases Finset.mem_union.mp hmem with hmem | hmem
  · exact hs k ((s.mem_keys_iff k).mp hmem)
  · exact ht k ((t.mem_keys_iff k).mp hmem)

theorem SupportedBy.set {s : ConstState} (hs : SupportedBy A s) {l : Location} (hl : l ∈ A)
    (v : ConstValue) : SupportedBy A (s.set l v) := by
  intro k hk
  by_cases hkl : k = l
  · exact hkl ▸ hl
  · rw [ConstState.entry_set_of_ne s v hkl] at hk
    exact hs k hk

theorem transferInstruction_eq (op : Instruction) (s : ConstState) :
    transferInstruction op s = s ∧ op.opDest = none ∨
      ∃ dest v, op.opDest = some dest ∧ transferInstruction op s = s.set dest.location v := by
  cases op <;> simp [transferInstruction, Instruction.opDest, transferBinop]

theorem SupportedBy.transferInstruction {s : ConstState} (hs : SupportedBy A s)
    {op : Instruction} (hop : ∀ dest, op.opDest = some dest → dest.location ∈ A) :
    SupportedBy A (transferInstruction op s) := by
  rcases transferInstruction_eq op s with ⟨h, -⟩ | ⟨dest, v, hdest, h⟩
  · rw [h]
    exact hs
  · rw [h]
    exact hs.set (hop dest hdest) v

theorem mem_assigned {f : Function} {b : BasicBlock} (hb : b ∈ f.blocks) {op : Instruction}
    (hop : op ∈ b.ops) {dest : Varnode} (hdest : op.opDest = some dest) :
    dest.location ∈ assigned f := by
  rw [assigned, List.mem_toFinset, List.mem_filterMap]
  exact ⟨op, List.mem_flatMap.mpr ⟨b, hb, hop⟩, by rw [hdest]; rfl⟩

theorem potential_init (f : Function) :
    potential f (stateRank (assigned f)) (solveInit f : SolverState ConstState) < solveFuel f := by
  have hsum : ∀ l : List BasicBlock,
      (l.map fun b => stateRank (assigned f) Lattice.top * b.successors.length).sum =
        3 * (assigned f).card * (l.flatMap BasicBlock.successors).length := by
    intro l
    have hrank : stateRank (assigned f) Lattice.top = 3 * (assigned f).card := by
      simp [stateRank, entryRank, Nat.mul_comm]
    induction l with
    | nil => rfl
    | cons b l ih =>
      rw [List.map_cons, List.sum_cons, ih, hrank, List.flatMap_cons, List.length_append,
        Nat.mul_add]
  rw [potential, outs_init, hsum, solveFuel]
  simp [solveInit]

/-- The solver returns within the fuel that the pass gives it, whatever the function. -/
theorem solveForward_eq_ok (f : Function) :
    ∃ r, solveForward (solveFuel f) f constantPropagation = .ok r := by
  have hmono : ∀ a, Monotone (equations f constantPropagation a) :=
    equations_mono (fun _ _ _ _ => ConstState.merge_mono) transferInstruction_mono
  refine Descending.solveLoop_of_potential (K := SupportedBy (assigned f)) hmono
    (fun b hb x hx => ?_) (fun s t hs _ h => stateRank_lt hs h)
    (descending_init ConstState.le_top) (fun a => ?_) (potential_init f)
  · exact outOf_of_closed supportedBy_top (fun _ _ => SupportedBy.merge)
      (fun op hop s hs => hs.transferInstruction fun _ => mem_assigned hb hop) hx
  · rw [outs_init]
    exact supportedBy_top

/-- Constant propagation ends on every function: from a number of iterations on, which the sizes
of the function bound, the solver returns. -/
theorem solveForward_terminates (f : Function) :
    ∃ r, ∀ fuel ≥ solveFuel f, solveForward fuel f constantPropagation = .ok r := by
  obtain ⟨r, hr⟩ := solveForward_eq_ok f
  exact ⟨r, fun fuel hfuel => solveLoop_mono hfuel hr⟩

variable {f : Function} (hnd : (f.blocks.map BasicBlock.startAddress).Nodup)
  (hrev : EdgesReversed f)

include hnd hrev

theorem run_eq_ok : ∃ r, Solved f constantPropagation r ∧ run f = .ok (rewrite f r) ∧
    solveForward (solveFuel f) f constantPropagation = .ok r := by
  obtain ⟨r, hr⟩ := solveForward_eq_ok f
  exact ⟨r, solveForward_solved hnd hrev hr, by rw [run, hr]; rfl, hr⟩

end Decompiler.ConstProp
