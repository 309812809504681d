import Mathlib.Order.WithBot
import Mathlib.Order.Lattice
import Decompiler.ConstProp.Pass

/-! # The order of the constant analysis

Values are ordered by `merge`, and states by their entries, where a missing entry
lies above an explicit `top`. Every operation of the analysis is monotone for it.
-/

namespace Decompiler.ConstProp

namespace ConstValue

@[simp] theorem top_merge (a : ConstValue) : ConstValue.top.merge a = a := by cases a <;> rfl

@[simp] theorem merge_top (a : ConstValue) : a.merge .top = a := by cases a <;> rfl

@[simp] theorem notConstant_merge (a : ConstValue) :
    ConstValue.notConstant.merge a = .notConstant := by
  cases a <;> rfl

@[simp] theorem merge_notConstant (a : ConstValue) : a.merge .notConstant = .notConstant := by
  cases a <;> rfl

theorem const_merge_const (a b : UInt64) :
    (const a).merge (const b) = if a = b then const a else .notConstant := rfl

theorem merge_comm (a b : ConstValue) : a.merge b = b.merge a := by
  cases a <;> cases b <;> simp [const_merge_const, eq_comm]
  split <;> simp_all

theorem merge_assoc (a b c : ConstValue) : (a.merge b).merge c = a.merge (b.merge c) := by
  cases a with
  | top => simp
  | notConstant => simp
  | const x =>
    cases b with
    | top => simp
    | notConstant => simp
    | const y =>
      cases c with
      | top => simp
      | notConstant => simp
      | const z =>
        by_cases hxy : x = y <;> by_cases hyz : y = z <;> simp_all [const_merge_const]

theorem merge_self (a : ConstValue) : a.merge a = a := by
  cases a <;> simp [const_merge_const]

/-- The order in which `merge` is the meet. -/
instance : SemilatticeInf ConstValue where
  le a b := a.merge b = a
  le_refl := merge_self
  le_trans a b c (hab : a.merge b = a) (hbc : b.merge c = b) :=
    show a.merge c = a by rw [← hab, merge_assoc, hbc]
  le_antisymm a b (hab : a.merge b = a) (hba : b.merge a = b) := by
    rw [← hab, merge_comm, hba]
  inf := ConstValue.merge
  inf_le_left a b := show (a.merge b).merge a = _ by
    rw [merge_comm, ← merge_assoc, merge_self]
  inf_le_right a b := show (a.merge b).merge b = _ by rw [merge_assoc, merge_self]
  le_inf a b c (hab : a.merge b = a) (hac : a.merge c = a) :=
    show a.merge (b.merge c) = a by rw [← merge_assoc, hab, hac]

theorem le_iff {a b : ConstValue} : a ≤ b ↔ a = b ∨ a = .notConstant ∨ b = .top := by
  change a.merge b = a ↔ _
  cases a <;> cases b <;> simp [const_merge_const]

theorem le_top (a : ConstValue) : a ≤ .top := le_iff.mpr (Or.inr (Or.inr rfl))

theorem notConstant_le (a : ConstValue) : .notConstant ≤ a := le_iff.mpr (Or.inr (Or.inl rfl))

theorem le_const_iff {a : ConstValue} {x : UInt64} : a ≤ .const x ↔ a = .const x ∨ a = .notConstant := by
  simp [le_iff]

theorem merge_le_merge {a b c d : ConstValue} (hab : a ≤ b) (hcd : c ≤ d) :
    a.merge c ≤ b.merge d :=
  inf_le_inf hab hcd

def rank : ConstValue → ℕ
  | .top => 2
  | .const _ => 1
  | .notConstant => 0

theorem rank_lt_rank {a b : ConstValue} (h : a < b) : a.rank < b.rank := by
  have hle := le_iff.mp h.le
  have hne := h.ne
  cases a <;> cases b <;> simp_all [rank]

end ConstValue

section EvalBinop

variable (f : UInt64 → UInt64 → UInt64)

@[simp] theorem evalBinop_notConstant_left (b : ConstValue) :
    evalBinop .notConstant b f = .notConstant := by
  cases b <;> rfl

@[simp] theorem evalBinop_notConstant_right (a : ConstValue) :
    evalBinop a .notConstant f = .notConstant := by
  cases a <;> rfl

theorem evalBinop_mono_left {a b : ConstValue} (hab : a ≤ b) (c : ConstValue) :
    evalBinop a c f ≤ evalBinop b c f := by
  rcases ConstValue.le_iff.mp hab with rfl | rfl | rfl
  · exact le_refl _
  · simpa using ConstValue.notConstant_le _
  · cases c with
    | notConstant => simp
    | top => exact ConstValue.le_top _
    | const x => exact ConstValue.le_top _

theorem evalBinop_mono_right (a : ConstValue) {c d : ConstValue} (hcd : c ≤ d) :
    evalBinop a c f ≤ evalBinop a d f := by
  rcases ConstValue.le_iff.mp hcd with rfl | rfl | rfl
  · exact le_refl _
  · simpa using ConstValue.notConstant_le _
  · cases a with
    | notConstant => simp
    | top => exact ConstValue.le_top _
    | const x => exact ConstValue.le_top _

theorem evalBinop_mono {a b c d : ConstValue} (hab : a ≤ b) (hcd : c ≤ d) :
    evalBinop a c f ≤ evalBinop b d f :=
  (evalBinop_mono_left f hab c).trans (evalBinop_mono_right f b hcd)

end EvalBinop

namespace ConstState

theorem values_injective : Function.Injective ConstState.values := by
  rintro ⟨s⟩ ⟨t⟩ rfl
  rfl

def entry (s : ConstState) (k : Location) : WithTop ConstValue := s.values.lookup k

theorem ext_entry {s t : ConstState} (h : ∀ k, s.entry k = t.entry k) : s = t :=
  values_injective (Finmap.ext_lookup h)

instance : PartialOrder ConstState :=
  PartialOrder.lift entry fun _ _ h => ext_entry (congrFun h)

@[simp] theorem entry_top (k : Location) :
    (Dataflow.Lattice.top : ConstState).entry k = ⊤ := rfl

protected theorem le_top (s : ConstState) : s ≤ Dataflow.Lattice.top := fun _ => le_top

theorem get_eq (s : ConstState) (k : Location) :
    s.get k = if k.space = .constant then .const k.offset else (s.entry k).untopD .top := by
  rw [get, entry]
  cases s.values.lookup k <;> rfl

theorem get_of_constant (s : ConstState) {k : Location} (hk : k.space = .constant) :
    s.get k = .const k.offset := by
  rw [get, if_pos hk]

@[simp] theorem get_top {k : Location} (hk : k.space ≠ .constant) :
    (Dataflow.Lattice.top : ConstState).get k = .top := by
  simp [get_eq, hk]

theorem get_mono {s t : ConstState} (h : s ≤ t) (k : Location) : s.get k ≤ t.get k := by
  rw [get_eq, get_eq]
  split
  · exact le_refl _
  · have hk := h k
    cases hs : s.entry k with
    | top =>
      rw [hs, top_le_iff] at hk
      rw [hk]
    | coe a =>
      cases ht : t.entry k with
      | top => exact ConstValue.le_top _
      | coe b =>
        rw [hs, ht] at hk
        exact WithTop.coe_le_coe.mp hk

@[simp] theorem entry_set_self (s : ConstState) (k : Location) (v : ConstValue) :
    (s.set k v).entry k = v :=
  Finmap.lookup_insert _

theorem entry_set_of_ne (s : ConstState) {k l : Location} (v : ConstValue) (h : l ≠ k) :
    (s.set k v).entry l = s.entry l :=
  Finmap.lookup_insert_of_ne _ h

theorem get_set_self (s : ConstState) {k : Location} (hk : k.space ≠ .constant)
    (v : ConstValue) : (s.set k v).get k = v := by
  simp [get_eq, hk]

theorem get_set_of_ne (s : ConstState) {k l : Location} (v : ConstValue) (h : l ≠ k) :
    (s.set k v).get l = s.get l := by
  rw [get_eq, get_eq, entry_set_of_ne s v h]

theorem set_mono {s t : ConstState} (h : s ≤ t) (k : Location) {v w : ConstValue} (hv : v ≤ w) :
    s.set k v ≤ t.set k w := by
  intro l
  change (s.set k v).entry l ≤ (t.set k w).entry l
  by_cases hl : l = k
  · subst hl
    simpa using hv
  · rw [entry_set_of_ne s v hl, entry_set_of_ne t w hl]
    exact h l

theorem entry_merge (s t : ConstState) (k : Location) :
    (s.merge t).entry k = mergeEntry s t k :=
  Finmap.keysLookupEquiv_symm_apply_lookup _ _

theorem mem_keys_iff (s : ConstState) (k : Location) : k ∈ s.values.keys ↔ s.entry k ≠ ⊤ := by
  rw [Finmap.mem_keys, Finmap.mem_iff]
  exact Option.ne_none_iff_exists'.symm

theorem mergeEntry_eq (s t : ConstState) {k : Location} (hk : k.space ≠ .constant) :
    mergeEntry s t k = if (s.get k).merge (t.get k) = .top then none
      else some ((s.get k).merge (t.get k)) := by
  unfold mergeEntry
  by_cases hmem : k ∈ s.values.keys ∪ t.values.keys
  · simp [hmem]
  · rw [Finset.mem_union, not_or, mem_keys_iff, mem_keys_iff, not_ne_iff, not_ne_iff] at hmem
    simp [get_eq, hk, hmem.1, hmem.2]

theorem mergeEntry_of_constant (s t : ConstState) {k : Location} (hk : k.space = .constant) :
    mergeEntry s t k = if k ∈ s.values.keys ∪ t.values.keys then some (.const k.offset)
      else none := by
  simp [mergeEntry, get_of_constant _ hk, ConstValue.const_merge_const]

@[simp] theorem get_merge (s t : ConstState) (k : Location) :
    (s.merge t).get k = (s.get k).merge (t.get k) := by
  by_cases hk : k.space = .constant
  · simp [get_of_constant _ hk, ConstValue.const_merge_const]
  · rw [get_eq, if_neg hk, entry_merge, mergeEntry_eq s t hk]
    split
    case isTrue h => exact h.symm
    case isFalse h => rfl

theorem merge_mono {s s' t t' : ConstState} (hs : s ≤ s') (ht : t ≤ t') :
    s.merge t ≤ s'.merge t' := by
  intro k
  change (s.merge t).entry k ≤ (s'.merge t').entry k
  rw [entry_merge, entry_merge]
  by_cases hk : k.space = .constant
  · rw [mergeEntry_of_constant _ _ hk, mergeEntry_of_constant _ _ hk]
    split
    case isTrue hmem =>
      split
      · exact le_refl _
      · exact le_top
    case isFalse hmem =>
      -- a location missing from the lower states is missing from the upper ones
      rw [Finset.mem_union, not_or, mem_keys_iff, mem_keys_iff, not_ne_iff, not_ne_iff] at hmem
      have hs' : s'.entry k = ⊤ := top_le_iff.mp (hmem.1 ▸ hs k)
      have ht' : t'.entry k = ⊤ := top_le_iff.mp (hmem.2 ▸ ht k)
      rw [if_neg (by simp [mem_keys_iff, hs', ht'])]
      exact le_refl (⊤ : WithTop ConstValue)
  · rw [mergeEntry_eq _ _ hk, mergeEntry_eq _ _ hk]
    have hle := ConstValue.merge_le_merge (get_mono hs k) (get_mono ht k)
    by_cases h : (s'.get k).merge (t'.get k) = .top
    · rw [if_pos h]
      exact le_top
    · rw [if_neg h, if_neg fun he => h (by
        rw [he, ConstValue.le_iff] at hle
        rcases hle with h | h | h
        · exact h.symm
        · cases h
        · exact h)]
      exact WithTop.coe_le_coe.mpr hle

end ConstState

theorem foldl_merge_mono {s t : ConstState} (h : s ≤ t) (srcs : List Varnode)
    {a b : ConstValue} (hab : a ≤ b) :
    srcs.foldl (fun acc src => acc.merge (s.get src.location)) a ≤
      srcs.foldl (fun acc src => acc.merge (t.get src.location)) b := by
  induction srcs generalizing a b with
  | nil => exact hab
  | cons v srcs ih => exact ih (ConstValue.merge_le_merge hab (ConstState.get_mono h _))

theorem transferBinop_mono (dest lhs rhs : Varnode) (f : UInt64 → UInt64 → UInt64) :
    Monotone (transferBinop dest lhs rhs f) := fun _ _ h =>
  ConstState.set_mono h _ (evalBinop_mono f (ConstState.get_mono h _) (ConstState.get_mono h _))

theorem transferInstruction_mono (op : Instruction) : Monotone (transferInstruction op) := by
  cases op with
  | copy dest src => exact fun s t h => ConstState.set_mono h _ (ConstState.get_mono h _)
  | load dest addr => exact fun s t h => ConstState.set_mono h _ (le_refl _)
  | phi dest srcs =>
    exact fun s t h => ConstState.set_mono h _ (foldl_merge_mono h srcs (le_refl _))
  | intAdd dest lhs rhs => exact transferBinop_mono dest lhs rhs _
  | intSub dest lhs rhs => exact transferBinop_mono dest lhs rhs _
  | intEqual dest lhs rhs => exact transferBinop_mono dest lhs rhs _
  | intNotEqual dest lhs rhs => exact transferBinop_mono dest lhs rhs _
  | intSless dest lhs rhs => exact transferBinop_mono dest lhs rhs _
  | intSlessEqual dest lhs rhs => exact transferBinop_mono dest lhs rhs _
  | store addr src => exact fun s t h => h
  | branch target => exact fun s t h => h
  | cbranch condition target => exact fun s t h => h
  | call target => exact fun s t h => h
  | ret => exact fun s t h => h
  | nop => exact fun s t h => h

end Decompiler.ConstProp
