import Decompiler.Types.Inference

/-! # Type inference terminates

A scan only adds entries, and only for locations that occur in the function. A scan that
reports a change has added one, so that the locations without an entry get fewer.
-/

namespace Decompiler.Types

/-- A change of the map for the varnodes of some operations: entries stay, and the flag is
set exactly if there are more of them. -/
structure Extends (vs : List Varnode) (types : TypeMap) (result : TypeMap × Bool) : Prop where
  keeps : ∀ l ∈ types, l ∈ result.1
  changed : result.2 = true → ∃ v ∈ vs, v.location ∉ types ∧ v.location ∈ result.1
  same : result.2 = false → result.1 = types

namespace Extends

variable {vs : List Varnode} {types : TypeMap}

theorem refl : Extends vs types (types, false) := ⟨fun _ h => h, nofun, fun _ => rfl⟩

theorem insert {v : Varnode} (hv : v ∈ vs) (hnew : v.location ∉ types) (t : DataType) :
    Extends vs types (types.insert v.location t, true) where
  keeps _ hl := Finmap.mem_insert.mpr (Or.inr hl)
  changed _ := ⟨v, hv, hnew, Finmap.mem_insert.mpr (Or.inl rfl)⟩
  same := nofun

theorem insertNew {v : Varnode} (hv : v ∈ vs) (t : DataType) :
    Extends vs types (insertNew types v t) := by
  unfold Types.insertNew
  split
  case isTrue => exact refl
  case isFalse hnew => exact insert hv hnew t

theorem inferAddress {addr : Varnode} (haddr : addr ∈ vs) (accessed : Varnode) :
    Extends vs types (inferAddress types addr accessed) := by
  unfold Types.inferAddress
  split
  case isTrue h => exact insert haddr h.1 _
  case isFalse => exact refl

end Extends

theorem inferOp_extends (op : Instruction) (types : TypeMap) :
    Extends (varnodes op) types (inferOp op types) := by
  cases op with
  | load dest addr => exact .inferAddress (by simp [varnodes]) _
  | store addr src => exact .inferAddress (by simp [varnodes]) _
  | intAdd dest lhs rhs | intSub dest lhs rhs =>
    dsimp only [inferOp]
    split
    · exact .insertNew (by simp [varnodes]) _
    · split
      · exact .insertNew (by simp [varnodes]) _
      · exact .refl
  | copy dest src | phi dest srcs =>
    dsimp only [inferOp]
    split
    · exact .insertNew (by simp [varnodes]) _
    · exact .refl
  | _ => exact .refl

theorem inferScan_extends (ops : List Instruction) (types : TypeMap) :
    Extends (ops.flatMap varnodes) types (inferScan ops types) := by
  induction ops using List.reverseRecOn with
  | nil => exact .refl
  | append_singleton ops op ih =>
    have hscan : inferScan (ops ++ [op]) types =
        ((inferOp op (inferScan ops types).1).1,
          (inferScan ops types).2 || (inferOp op (inferScan ops types).1).2) := by
      rw [inferScan, List.foldl_append]
      rfl
    have hop := inferOp_extends op (inferScan ops types).1
    have hsub : ∀ v ∈ ops.flatMap varnodes, v ∈ (ops ++ [op]).flatMap varnodes := by
      intro v hv
      simp only [List.flatMap_append, List.mem_append]
      exact Or.inl hv
    rw [hscan]
    constructor
    · exact fun l hl => hop.keeps l (ih.keeps l hl)
    · intro hchanged
      cases hfirst : (inferScan ops types).2 with
      | true =>
        obtain ⟨v, hv, hnew, hmem⟩ := ih.changed hfirst
        exact ⟨v, hsub v hv, hnew, hop.keeps _ hmem⟩
      | false =>
        have hlast : (inferOp op (inferScan ops types).1).2 = true := by
          simpa [hfirst] using hchanged
        obtain ⟨v, hv, hnew, hmem⟩ := hop.changed hlast
        rw [ih.same hfirst] at hnew
        exact ⟨v, by simp [hv], hnew, hmem⟩
    · intro hsame
      obtain ⟨hfirst, hlast⟩ := Bool.or_eq_false_iff.mp hsame
      exact (hop.same hlast).trans (ih.same hfirst)

def untyped (vs : List Varnode) (types : TypeMap) : Finset Location :=
  (vs.map Varnode.location).toFinset.filter (· ∉ types)

theorem Extends.untyped_ssubset {vs : List Varnode} {types : TypeMap}
    {result : TypeMap × Bool} (h : Extends vs types result) (hchanged : result.2 = true) :
    untyped vs result.1 ⊂ untyped vs types := by
  obtain ⟨v, hv, hnew, hmem⟩ := h.changed hchanged
  apply Finset.ssubset_iff_subset_ne.mpr
  constructor
  · intro l hl
    obtain ⟨hocc, hnot⟩ := Finset.mem_filter.mp hl
    exact Finset.mem_filter.mpr ⟨hocc, fun hmem => hnot (h.keeps l hmem)⟩
  · intro heq
    have hv' : v.location ∈ untyped vs types :=
      Finset.mem_filter.mpr ⟨List.mem_toFinset.mpr (List.mem_map_of_mem hv), hnew⟩
    rw [← heq] at hv'
    exact (Finset.mem_filter.mp hv').2 hmem

/-- Every scan that reports a change leaves fewer locations without an entry. -/
theorem inferLoop_eq_ok {ops : List Instruction} {fuel : ℕ} {types : TypeMap}
    (hfuel : (untyped (ops.flatMap varnodes) types).card < fuel) :
    ∃ types', inferLoop ops fuel types = .ok types' := by
  induction fuel generalizing types with
  | zero => exact absurd hfuel (Nat.not_lt_zero _)
  | succ fuel ih =>
    rw [inferLoop]
    have hscan := inferScan_extends ops types
    generalize inferScan ops types = result at hscan
    obtain ⟨types', changed⟩ := result
    cases changed with
    | true =>
      have hless : (untyped (ops.flatMap varnodes) types').card < _ :=
        Finset.card_lt_card (hscan.untyped_ssubset rfl)
      apply ih
      omega
    | false => exact ⟨types', rfl⟩

theorem run_eq_ok (f : Function) : ∃ types, run f = .ok { f with types := types } := by
  have hcard : (untyped ((f.blocks.flatMap BasicBlock.ops).flatMap varnodes) f.types).card <
      inferFuel (f.blocks.flatMap BasicBlock.ops) := by
    apply Nat.lt_succ_of_le
    calc _ ≤ _ := Finset.card_filter_le _ _
      _ ≤ _ := List.toFinset_card_le _
      _ = _ := List.length_map _
  obtain ⟨types, htypes⟩ := inferLoop_eq_ok hcard
  exact ⟨types, by rw [run, htypes]; rfl⟩

end Decompiler.Types
