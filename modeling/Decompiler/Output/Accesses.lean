import Decompiler.Output.Ctypes

/-! # Widths of the emitted memory accesses

A load or a store is printed through the type of its address. It has the width of the
operation if that address got its type from accesses of the same width, or none at all.
-/

namespace Decompiler.Output

open Decompiler.Types

/-- After a run from an empty map, an access is printed with the width of the accessed varnode
exactly if everything that the address may point to has that width. -/
theorem ctypeBytes_access_iff (f : Function) (hempty : f.types = ∅) :
    ∃ types, run f = .ok { f with types := types } ∧
      ∀ op ∈ programOps f, ∀ addr accessed,
        op = .load accessed addr ∨ op = .store addr accessed →
        accessed.size.toNat ∈ [1, 2, 4, 8] →
        (ctypeBytes (accessCtype types addr accessed) = some accessed.size.toNat ↔
          ∀ bytes, Pointee (programOps f) addr.location bytes → bytes = accessed.size.toNat) := by
  obtain ⟨types, hrun⟩ := run_eq_ok f
  have hi := run_inferred hempty hrun
  refine ⟨types, hrun, ?_⟩
  intro op _ addr accessed _ hsize
  rw [ctypeBytes_accessCtype hi, wordBytes_of_mem hsize]
  constructor
  · rintro (hpointee | ⟨hnone, -⟩) bytes hbytes
    · exact (hbytes.pointsTo hi).unique (hpointee.pointsTo hi)
    · obtain ⟨inner, hinner, -⟩ := hbytes.pointsTo hi
      rw [← hi.typed_eq] at hnone
      exact absurd (mem_typed_iff.mpr ⟨_, hinner⟩) hnone
  · intro hall
    by_cases haddr : addr.location ∈ pointers (programOps f)
    · rw [← hi.typed_eq] at haddr
      obtain ⟨bytes, hbytes⟩ := exists_pointee hi haddr
      exact Or.inl (hall bytes hbytes ▸ hbytes)
    · exact Or.inr ⟨haddr, rfl⟩

/-- `r2 = *r1; *r1 = r3` with values of four bytes. -/
def sameWidth : Function :=
  let addr := Varnode.new .register 1 8
  { Function.new "same_width" 0 with
    blocks := [(BasicBlock.new 0).push 0
      [.load (Varnode.new .register 2 4) addr, .store addr (Varnode.new .register 3 4)]] }

theorem ctypeBytes_access_iff_sameWidth :
    ∃ types, run sameWidth = .ok { sameWidth with types := types } ∧
      ctypeBytes (accessCtype types (.new .register 1 8) (.new .register 2 4)) = some 4 ∧
      ctypeBytes (accessCtype types (.new .register 1 8) (.new .register 3 4)) = some 4 := by
  obtain ⟨types, hrun, h⟩ := ctypeBytes_access_iff sameWidth rfl
  have hi : Inferred (programOps sameWidth) types := run_inferred rfl hrun
  have htypes : types = (∅ : TypeMap).insert (Varnode.new .register 1 8).location
      (.pointer (.primitive 4 false)) :=
    congrArg Function.types (Except.ok.inj (hrun.symm.trans rfl))
  have hpointee : ∀ bytes, Pointee (programOps sameWidth) (Varnode.new .register 1 8).location
      bytes → bytes = 4 := by
    intro bytes hbytes
    refine (hbytes.pointsTo hi).unique ⟨.primitive 4 false, ?_, by decide⟩
    rw [htypes]
    decide
  refine ⟨types, hrun, ?_, ?_⟩
  · exact (h _ List.mem_cons_self _ _ (.inl rfl) (by decide)).mpr hpointee
  · exact (h _ (List.mem_cons_of_mem _ List.mem_cons_self) _ _ (.inr rfl) (by decide)).mpr hpointee

/-- `r2 = *r1; r3 = *r1` with values of four and of eight bytes. -/
def twoWidths : Function :=
  let addr := Varnode.new .register 1 8
  { Function.new "two_widths" 0 with
    blocks := [(BasicBlock.new 0).push 0
      [.load (Varnode.new .register 2 4) addr, .load (Varnode.new .register 3 8) addr]] }

/-- The second load of `twoWidths` is printed through the type of the first. -/
theorem twoWidths_narrowed :
    ¬ ∀ f : Function, f.types = ∅ → ∀ types, run f = .ok { f with types := types } →
      ∀ op ∈ programOps f, ∀ addr accessed,
        op = .load accessed addr ∨ op = .store addr accessed →
        addr.size.toNat ∈ [1, 2, 4, 8] → accessed.size.toNat ∈ [1, 2, 4, 8] →
        ctypeBytes (accessCtype types addr accessed) = some accessed.size.toNat := by
  intro hclaim
  let addr := Varnode.new .register 1 8
  have hrun : run twoWidths = .ok { twoWidths with
      types := (∅ : TypeMap).insert addr.location (.pointer (.primitive 4 false)) } := rfl
  have hwidth := hclaim twoWidths rfl _ hrun (.load (Varnode.new .register 3 8) addr)
    (by decide) addr (Varnode.new .register 3 8) (Or.inl rfl) (by decide) (by decide)
  revert hwidth
  decide

end Decompiler.Output
