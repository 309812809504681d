import Decompiler.Cfg.Build
import Decompiler.Library.Adjacent

/-! # Leaders

The leaders are the initial ones, the absolute branch targets of the stream, and
the addresses that follow an instruction with a terminator.
-/

namespace Decompiler

def Instruction.branchTarget? : Instruction → Option Address
  | .branch target | .cbranch _ target => target.address?
  | _ => none

namespace LiftedInstruction

def hasTerminator (li : LiftedInstruction) : Prop := ∃ op ∈ li.ops, op.isTerminator

def Targets (li : LiftedInstruction) (a : Address) : Prop :=
  ∃ op ∈ li.ops, op.branchTarget? = some a

end LiftedInstruction

namespace Cfg

theorem foldl_scanLeader (ops : List Instruction) (s : Finset Address × Bool) :
    (∀ a, a ∈ (ops.foldl scanLeader s).1 ↔ a ∈ s.1 ∨ ∃ op ∈ ops, op.branchTarget? = some a) ∧
      ((ops.foldl scanLeader s).2 = true ↔ s.2 = true ∨ ∃ op ∈ ops, op.isTerminator) := by
  induction ops generalizing s with
  | nil => simp
  | cons op ops ih =>
    have hs : (∀ a, a ∈ (scanLeader s op).1 ↔ a ∈ s.1 ∨ op.branchTarget? = some a) ∧
        ((scanLeader s op).2 = true ↔ s.2 = true ∨ op.isTerminator) := by
      have habsolute : ∀ x a : Address, a ∈ insert x s.1 ↔ a ∈ s.1 ∨ some x = some a := by
        intro x a
        rw [Finset.mem_insert, Option.some_inj, or_comm, eq_comm]
      have hnone : ∀ a, a ∈ s.1 ↔ a ∈ s.1 ∨ (none : Option Address) = some a := by simp
      have hterminator : true = true ↔ s.2 = true ∨ true = true := by simp
      have hplain : s.2 = true ↔ s.2 = true ∨ false = true := by simp
      cases op with
      | branch t =>
        cases t with
        | absolute x => exact ⟨habsolute x, hterminator⟩
        | indirect => exact ⟨hnone, hterminator⟩
      | cbranch c t =>
        cases t with
        | absolute x => exact ⟨habsolute x, hterminator⟩
        | indirect => exact ⟨hnone, hterminator⟩
      | ret => exact ⟨hnone, hterminator⟩
      | _ => exact ⟨hnone, hplain⟩
    simp only [List.foldl_cons, List.exists_mem_cons_iff]
    exact ⟨fun a => by rw [(ih _).1, hs.1, or_assoc], by rw [(ih _).2, hs.2, or_assoc]⟩

theorem mem_leaderLoop {flat : List LiftedInstruction} {leaders : Finset Address} {a : Address} :
    a ∈ leaderLoop flat leaders ↔ a ∈ leaders ∨ (∃ li ∈ flat, li.Targets a) ∨
      ∃ li next, Follows flat li next ∧ li.hasTerminator ∧ next.address = a := by
  induction flat generalizing leaders with
  | nil => simp [leaderLoop]
  | cons li rest ih =>
    obtain ⟨hmem, hterm⟩ := foldl_scanLeader li.ops (leaders, false)
    simp only [Bool.false_eq_true, false_or] at hterm
    simp only [List.exists_mem_cons_iff, Follows.cons_iff]
    rw [leaderLoop]
    split
    case h_1 next ht hn =>
      have hli : li.hasTerminator := hterm.mp ht
      rw [ih, Finset.mem_insert, hmem]
      constructor
      · rintro ((rfl | h | h) | h | ⟨x, y, hf, hx, hy⟩)
        · exact Or.inr (Or.inr ⟨li, next, Or.inl ⟨rfl, hn⟩, hli, rfl⟩)
        · exact Or.inl h
        · exact Or.inr (Or.inl (Or.inl h))
        · exact Or.inr (Or.inl (Or.inr h))
        · exact Or.inr (Or.inr ⟨x, y, Or.inr hf, hx, hy⟩)
      · rintro (h | (h | h) | ⟨x, y, ⟨rfl, hf⟩ | hf, hx, hy⟩)
        · exact Or.inl (Or.inr (Or.inl h))
        · exact Or.inl (Or.inr (Or.inr h))
        · exact Or.inr (Or.inl h)
        · obtain rfl : next = y := Option.some.inj (hn.symm.trans hf)
          exact Or.inl (Or.inl hy.symm)
        · exact Or.inr (Or.inr ⟨x, y, hf, hx, hy⟩)
    case h_2 hne =>
      rw [ih, hmem]
      constructor
      · rintro ((h | h) | h | ⟨x, y, hf, hx, hy⟩)
        · exact Or.inl h
        · exact Or.inr (Or.inl (Or.inl h))
        · exact Or.inr (Or.inl (Or.inr h))
        · exact Or.inr (Or.inr ⟨x, y, Or.inr hf, hx, hy⟩)
      · rintro (h | (h | h) | ⟨x, y, ⟨rfl, hf⟩ | hf, hx, hy⟩)
        · exact Or.inl (Or.inl h)
        · exact Or.inl (Or.inr h)
        · exact Or.inr (Or.inl h)
        · exact absurd hf (hne y (hterm.mpr hx))
        · exact Or.inr (Or.inr ⟨x, y, hf, hx, hy⟩)

/-- The leaders of a stream: its entry, its first address, its branch targets and
the addresses after its terminators. -/
def IsLeader (flat : List LiftedInstruction) (entry : Address) (a : Address) : Prop :=
  (a = entry ∨ (flat.head?.map LiftedInstruction.address) = some a) ∨
    (∃ li ∈ flat, li.Targets a) ∨
    ∃ li next, Follows flat li next ∧ li.hasTerminator ∧ next.address = a

theorem findLeaders_eq_ok {flat : List LiftedInstruction} (entry : Address) (h : flat ≠ []) :
    ∃ leaders, findLeaders flat entry = .ok leaders ∧
      ∀ a, a ∈ leaders ↔ IsLeader flat entry a := by
  cases flat with
  | nil => exact absurd rfl h
  | cons first rest =>
    refine ⟨leaderLoop (first :: rest) (insert first.address {entry}), rfl, fun a => ?_⟩
    rw [mem_leaderLoop, IsLeader]
    simp only [Finset.mem_insert, Finset.mem_singleton, List.head?_cons, Option.map_some,
      Option.some.injEq]
    rw [or_comm (a := a = first.address), eq_comm (a := a) (b := first.address)]

end Cfg

end Decompiler
