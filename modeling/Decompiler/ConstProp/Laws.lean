import Decompiler.ConstProp.Order

/-! # The laws of the state lattice

The merge of states is commutative and associative, and it raises no value. It is idempotent
on those states only that store no `top` and, in the constant space, no other value than the
offset: merging drops the one and replaces the other.
-/

namespace Decompiler.ConstProp

open Dataflow

inductive Obtainable : ConstState → Prop
  | top : Obtainable Lattice.top
  | transfer {s : ConstState} (op : Instruction) (h : Obtainable s) :
    Obtainable (transferInstruction op s)
  | merge {s t : ConstState} (hs : Obtainable s) (ht : Obtainable t) : Obtainable (s.merge t)

/-- The laws that the solver documents for its lattices, at three states. -/
structure MergeLaws (a b c : ConstState) : Prop where
  comm : a.merge b = b.merge a
  assoc : (a.merge b).merge c = a.merge (b.merge c)
  idem : a.merge a = a
  merge_top : a.merge Lattice.top = a
  top_merge : ConstState.merge Lattice.top a = a
  le_left : ∀ l, (a.merge b).get l ≤ a.get l
  le_right : ∀ l, (a.merge b).get l ≤ b.get l

namespace ConstState

/-- Every stored value is the value of its location, and none is `top`. -/
def IsNormal (s : ConstState) : Prop :=
  ∀ l v, s.values.lookup l = some v → v = s.get l ∧ v ≠ .top

variable {a b c : ConstState}

theorem mergeEntry_comm (a b : ConstState) (l : Location) : mergeEntry a b l = mergeEntry b a l := by
  unfold mergeEntry
  rw [Finset.union_comm, ConstValue.merge_comm]

protected theorem merge_comm (a b : ConstState) : a.merge b = b.merge a := by
  apply ext_entry
  intro l
  rw [entry_merge, entry_merge, mergeEntry_comm]

theorem mem_keys_merge_of_constant (a b : ConstState) {l : Location} (hl : l.space = .constant) :
    l ∈ (a.merge b).values.keys ↔ l ∈ a.values.keys ∪ b.values.keys := by
  rw [mem_keys_iff, entry_merge, mergeEntry_of_constant a b hl]
  split
  case isTrue h => exact iff_of_true nofun h
  case isFalse h => exact iff_of_false (fun hne => hne rfl) h

protected theorem merge_assoc (a b c : ConstState) :
    (a.merge b).merge c = a.merge (b.merge c) := by
  apply ext_entry
  intro l
  rw [entry_merge, entry_merge]
  by_cases hl : l.space = .constant
  · rw [mergeEntry_of_constant _ _ hl, mergeEntry_of_constant _ _ hl]
    apply if_congr _ rfl rfl
    simp only [Finset.mem_union, mem_keys_merge_of_constant _ _ hl, or_assoc]
  · rw [mergeEntry_eq _ _ hl, mergeEntry_eq _ _ hl, get_merge, get_merge, ConstValue.merge_assoc]

theorem get_merge_le_left (a b : ConstState) (l : Location) : (a.merge b).get l ≤ a.get l := by
  rw [get_merge]
  exact inf_le_left

theorem merge_top_eq (a : ConstState) : a.merge Lattice.top = a.merge a := by
  apply ext_entry
  intro l
  rw [entry_merge, entry_merge]
  by_cases hl : l.space = .constant
  · rw [mergeEntry_of_constant _ _ hl, mergeEntry_of_constant _ _ hl]
    have hkeys : (Lattice.top : ConstState).values.keys = ∅ := rfl
    rw [hkeys, Finset.union_empty, Finset.union_self]
  · rw [mergeEntry_eq _ _ hl, mergeEntry_eq _ _ hl, get_top hl, ConstValue.merge_top,
      ConstValue.merge_self]

theorem mergeEntry_self (a : ConstState) (l : Location) :
    mergeEntry a a l = if l ∈ a.values.keys ∧ a.get l ≠ .top then some (a.get l) else none := by
  unfold mergeEntry
  rw [Finset.union_self, ConstValue.merge_self]
  by_cases hmem : l ∈ a.values.keys <;> simp [hmem]

theorem merge_self_iff : a.merge a = a ↔ a.IsNormal := by
  constructor
  · intro h l v hv
    have hentry : mergeEntry a a l = some v := by
      rw [← hv]
      exact (entry_merge a a l).symm.trans (congrArg (entry · l) h)
    rw [mergeEntry_self] at hentry
    split at hentry
    case isTrue hne =>
      obtain rfl := Option.some.inj hentry
      exact ⟨rfl, hne.2⟩
    case isFalse => cases hentry
  · intro h
    apply ext_entry
    intro l
    rw [entry_merge, mergeEntry_self]
    cases hv : a.values.lookup l with
    | none =>
      have hnot : l ∉ a.values.keys := by
        rw [Finmap.mem_keys, ← Finmap.lookup_eq_none]
        exact hv
      rw [if_neg fun hmem => hnot hmem.1]
      exact hv.symm
    | some v =>
      obtain ⟨rfl, hne⟩ := h l v hv
      have hmem : l ∈ a.values.keys := by
        rw [Finmap.mem_keys, ← Finmap.lookup_isSome, hv]
        rfl
      rw [if_pos ⟨hmem, hne⟩]
      exact hv.symm

end ConstState

open ConstState

/-- The laws hold exactly at the states that store nothing but what they mean. -/
theorem mergeLaws_iff (a b c : ConstState) : MergeLaws a b c ↔ a.IsNormal := by
  constructor
  · exact fun h => merge_self_iff.mp h.idem
  · intro h
    have hself : a.merge a = a := merge_self_iff.mpr h
    have htop : a.merge Lattice.top = a := (merge_top_eq a).trans hself
    constructor
    case comm => exact ConstState.merge_comm a b
    case assoc => exact ConstState.merge_assoc a b c
    case idem => exact hself
    case merge_top => exact htop
    case top_merge => exact (ConstState.merge_comm _ a).trans htop
    case le_left => exact get_merge_le_left a b
    case le_right =>
      rw [ConstState.merge_comm]
      exact get_merge_le_left b a

def copyUnknown : Instruction := .copy (.register 0 4 "EAX") (.register 1 4 "ECX")

/-- After such a copy the state stores a `top`, and merging it with itself loses the entry. -/
theorem not_mergeLaws_copyUnknown :
    Obtainable (transferInstruction copyUnknown Lattice.top) ∧
      ∀ b c, ¬ MergeLaws (transferInstruction copyUnknown Lattice.top) b c := by
  refine ⟨.transfer _ .top, ?_⟩
  intro b c h
  have hstored : (transferInstruction copyUnknown Lattice.top).values.lookup
      (Varnode.register 0 4 "EAX").location = some .top :=
    Finmap.lookup_insert _
  exact (merge_self_iff.mp h.idem _ _ hstored).2 rfl

end Decompiler.ConstProp
