import Decompiler.Types.Evidence

/-! # Pointer constraints

A memory access asks its address to be a pointer to the accessed varnode's type, and a copy
asks for equal types. A run fulfils these constraints when it can, if it types what an
access reads or writes before its address, and if the types it passes on do not
contradict them.
-/

namespace Decompiler.Types

/-- The constraints of the loads, stores and copies. -/
structure Satisfies (ops : List Instruction) (types : TypeMap) : Prop where
  load : ∀ dest addr, .load dest addr ∈ ops → addr.space ≠ .constant →
    accessType types addr = .pointer (accessType types dest)
  store : ∀ addr src, .store addr src ∈ ops → addr.space ≠ .constant →
    accessType types addr = .pointer (accessType types src)
  copy : ∀ dest src, .copy dest src ∈ ops → src.location ∈ types →
    accessType types dest = accessType types src

/-- The least set that contains the addresses and is closed under the rules. -/
def pointers (ops : List Instruction) : Set Location := {l | ∀ s, ClosedUnder ops s → l ∈ s}

def Satisfiable (ops : List Instruction) : Prop :=
  ∃ types, typed types = pointers ops ∧ Satisfies ops types

/-- When an address enters, the accessed varnode has been typed or never will be. -/
def EvidenceFirst (ops : List Instruction) : Prop :=
  ∀ h op l v, Enters ops h op l → accessed op = some v →
    v.location ∈ rules.reached h ∨ v.location ∉ pointers ops

/-- What enters through an operand has the type of that operand. -/
def PassesOn (ops : List Instruction) (types : TypeMap) : Prop :=
  ∀ h op l v, Enters ops h op l → Passes (rules.reached h) op v →
    types.lookup l = types.lookup v.location

variable {ops h : List Instruction} {op : Instruction} {types : TypeMap} {l : Location}

theorem accessType_eq_of_lookup {types' : TypeMap} {v : Varnode}
    (h : types.lookup v.location = types'.lookup v.location) :
    accessType types v = accessType types' v := by
  rw [accessType, accessType, h]

theorem accessType_of_lookup {v : Varnode} {t : DataType} (h : types.lookup v.location = some t) :
    accessType types v = t := by
  rw [accessType, h, Option.getD_some]

theorem Satisfies.access {v : Varnode} (hs : Satisfies ops types) (he : Enters ops h op l)
    (hv : accessed op = some v) (hl : l ∈ types) :
    types.lookup l = some (.pointer (accessType types v)) := by
  obtain ⟨t, ht⟩ := Finmap.mem_iff.mp hl
  obtain ⟨addr, haddr, rfl⟩ := Option.map_eq_some_iff.mp he.introduces.target
  rw [ht, ← accessType_of_lookup ht]
  cases op with
  | load dest a =>
    obtain rfl := Option.some.inj hv
    simp only [target, Option.ite_none_left_eq_some, Option.some.injEq] at haddr
    obtain ⟨hspace, rfl⟩ := haddr
    rw [hs.load dest a he.op_mem hspace]
  | store a src =>
    obtain rfl := Option.some.inj hv
    simp only [target, Option.ite_none_left_eq_some, Option.some.injEq] at haddr
    obtain ⟨hspace, rfl⟩ := haddr
    rw [hs.store a src he.op_mem hspace]
  | _ => cases hv

theorem Inferred.typed_eq (hi : Inferred ops types) : typed types = pointers ops := by
  have hclosed : ClosedUnder ops (typed types) := by
    obtain ⟨n, rfl, hsat⟩ := hi
    exact closedUnder_iff.mpr ((inferAll_pointers _).1.closed_of_saturated hsat)
  ext l
  constructor
  · intro hl s hs
    obtain ⟨h, ⟨n, hn⟩, hmem⟩ := hi.mem_iff.mp hl
    exact (closedUnder_iff.mp hs).reached_subset
      (fun op hop => mem_of_mem_scans (hn.subset hop)) hmem
  · intro hl
    exact hl _ hclosed

/-- Inferred types that fulfil the constraints were made from evidence that came first. -/
theorem Inferred.evidenceFirst (hi : Inferred ops types) (hs : Satisfies ops types) :
    EvidenceFirst ops := by
  intro h op l v he hv
  by_contra hnot
  obtain ⟨hbefore, hlater⟩ := not_or.mp hnot
  rw [not_not, ← hi.typed_eq] at hlater
  have hl : l ∈ types := hi.mem_of_reached he.history he.introduces.mem
  have heq : accessType (after h) v = accessType types v := by
    have hsome := (hi.lookup_enters_access he hv).symm.trans (hs.access he hv hl)
    exact DataType.pointer.inj (Option.some.inj hsome)
  -- before the entry of `v` the address is made a pointer to a primitive type
  obtain ⟨t, ht⟩ := Finmap.mem_iff.mp hlater
  obtain ⟨inner, rfl⟩ := hi.allPointers _ _ ht
  have hnone : (after h).lookup v.location = none :=
    Finmap.lookup_eq_none.mpr fun hmem => hbefore (mem_typed_after.mp hmem)
  rw [accessType_of_lookup ht, accessType, hnone] at heq
  cases heq

/-- With the evidence first, the inferred types are the only ones that fulfil the constraints
and are passed on. -/
theorem Inferred.eq_of_satisfies {m : TypeMap} (hi : Inferred ops types)
    (hfirst : EvidenceFirst ops) (hdom : typed m = pointers ops) (hs : Satisfies ops m)
    (hpass : PassesOn ops m) : types = m := by
  have hmem : ∀ {l}, l ∈ types ↔ l ∈ m := by
    intro l
    exact Set.ext_iff.mp (hi.typed_eq.trans hdom.symm) l
  have hstep : ∀ h op l, Enters ops h op l →
      (∀ l' ∈ rules.reached h, types.lookup l' = m.lookup l') → types.lookup l = m.lookup l := by
    intro h op l he ih
    have hh : History ops h := he.history.of_prefix (List.prefix_append h [op])
    have hl : l ∈ m := hmem.mp (hi.mem_of_reached he.history he.introduces.mem)
    rcases exists_passes he.introduces.fires with ⟨v, hv⟩ | ⟨v, hv⟩
    · rw [hi.lookup_enters_access he hv, hs.access he hv hl]
      congr 2
      apply accessType_eq_of_lookup
      rcases hfirst h op l v he hv with hknown | hnever
      · rw [← hi.lookup_eq hh hknown, ih _ hknown]
      · have hnot : v.location ∉ types := by rwa [← hi.typed_eq] at hnever
        rw [Finmap.lookup_eq_none.mpr fun hv' => hnot (hmem.mpr hv'), Finmap.lookup_eq_none]
        exact fun hafter => hnot (hi.mem_of_reached hh (mem_typed_after.mp hafter))
    · rw [hi.lookup_enters_passes he hv, hpass h op l v he hv]
      exact ih _ hv.mem
  apply Finmap.ext_lookup
  intro l
  by_cases hl : l ∈ types
  · obtain ⟨h, hh, hreached⟩ := hi.mem_iff.mp hl
    exact History.induction hstep hh l hreached
  · rw [Finmap.lookup_eq_none.mpr hl, Finmap.lookup_eq_none.mpr fun hm => hl (hmem.mpr hm)]

theorem Inferred.passesOn (hi : Inferred ops types) : PassesOn ops types :=
  fun _ _ _ _ he hv => hi.lookup_enters_passes he hv

/-- A run from an empty map fulfils its constraints, if that is possible, exactly if the accessed
varnodes are typed before their addresses and the types passed on are compatible with the
constraints. -/
theorem run_satisfies_iff (f : Function) (hempty : f.types = ∅) :
    (∀ types, run f = .ok { f with types := types } →
      (∃ m, (∀ l, l ∈ m ↔ l ∈ types) ∧ Satisfies (programOps f) m) →
        Satisfies (programOps f) types) ↔
      (Satisfiable (programOps f) → EvidenceFirst (programOps f) ∧
        ∃ m, typed m = pointers (programOps f) ∧ Satisfies (programOps f) m ∧
          PassesOn (programOps f) m) := by
  obtain ⟨types, hrun⟩ := run_eq_ok f
  have hi := run_inferred hempty hrun
  constructor
  · rintro hclaim ⟨m, hdom, hm⟩
    have hs : Satisfies (programOps f) types := by
      refine hclaim types hrun ⟨m, ?_, hm⟩
      exact Set.ext_iff.mp (hdom.trans hi.typed_eq.symm)
    exact ⟨hi.evidenceFirst hs, types, hi.typed_eq, hs, hi.passesOn⟩
  · rintro hcond types' hrun' ⟨m, hdom, hm⟩
    have hi' := run_inferred hempty hrun'
    have hdom' : typed m = pointers (programOps f) := by
      rw [← hi'.typed_eq]
      exact Set.ext hdom
    obtain ⟨hfirst, m', hm', hs, hpass⟩ := hcond ⟨m, hdom', hm⟩
    rwa [hi'.eq_of_satisfies hfirst hm' hs hpass]

/-- `r2 = *r1; r3 = r1 + 4; r5 = r3` on registers of eight bytes. -/
def passedPointer : Function :=
  let r (id : UInt64) := Varnode.new .register id 8
  { Function.new "passed_pointer" 0 with
    blocks := [(BasicBlock.new 0).push 0
      [.load (r 2) (r 1), .intAdd (r 3) (r 1) (Varnode.constant 4 8), .copy (r 5) (r 3)]] }

/-- The loaded value never is a pointer, and the others have the type of their operand. -/
theorem run_satisfies_iff_passedPointer :
    ∃ types, run passedPointer = .ok { passedPointer with types := types } ∧
      Satisfies (programOps passedPointer) types := by
  let r (id : UInt64) : Varnode := .new .register id 8
  let word : DataType := .pointer (.primitive 8 false)
  let types : TypeMap :=
    (((∅ : TypeMap).insert (r 1).location word).insert (r 3).location word).insert
      (r 5).location word
  have hrun : run passedPointer = .ok { passedPointer with types := types } := rfl
  have hi := run_inferred rfl hrun
  have hops : programOps passedPointer = [.load (r 2) (r 1),
    .intAdd (r 3) (r 1) (Varnode.constant 4 8), .copy (r 5) (r 3)] := rfl
  have hs : Satisfies (programOps passedPointer) types := by
    rw [hops]
    constructor
    · intro dest addr hop _
      obtain ⟨rfl, rfl⟩ : dest = r 2 ∧ addr = r 1 := by simpa using hop
      rfl
    · intro addr src hop
      simp at hop
    · intro dest src hop _
      obtain ⟨rfl, rfl⟩ : dest = r 5 ∧ src = r 3 := by simpa using hop
      rfl
  have hfirst : EvidenceFirst (programOps passedPointer) := by
    intro h op l v he hv
    obtain ⟨n, hn⟩ := he.history
    have hmem : op ∈ programOps passedPointer := mem_of_mem_scans (hn.subset (by simp))
    rw [← hi.typed_eq, mem_typed_iff]
    right
    rw [hops] at hmem
    simp only [List.mem_cons, List.not_mem_nil, or_false] at hmem
    rcases hmem with rfl | rfl | rfl
    · obtain rfl := Option.some.inj hv
      rintro ⟨t, ht⟩
      cases ht
    · cases hv
    · cases hv
  exact ⟨_, hrun, (run_satisfies_iff passedPointer rfl).mpr
    (fun _ => ⟨hfirst, _, hi.typed_eq, hs, hi.passesOn⟩) _ hrun ⟨_, fun _ => Iff.rfl, hs⟩⟩

/-- The first of two dependent loads makes its address a pointer to an integer, and the second
makes the loaded value a pointer. -/
theorem dependentLoads_unsatisfied :
    ¬ ∀ f : Function, f.types = ∅ → ∀ types, run f = .ok { f with types := types } →
      (∃ m, (∀ l, l ∈ m ↔ l ∈ types) ∧ Satisfies (programOps f) m) →
        Satisfies (programOps f) types := by
  intro hclaim
  let word : DataType := .primitive 8 false
  let r (id : UInt64) : Varnode := .new .register id 8
  have hrun : run dependentLoads = .ok { dependentLoads with
      types := ((∅ : TypeMap).insert (r 1).location (.pointer word)).insert (r 2).location
        (.pointer word) } := rfl
  have hops : programOps dependentLoads = [.load (r 2) (r 1), .load (r 3) (r 2)] := rfl
  have hsat := hclaim dependentLoads rfl _ hrun
    ⟨((∅ : TypeMap).insert (r 1).location (.pointer (.pointer word))).insert (r 2).location
      (.pointer word), by simp, by
        rw [hops]
        constructor
        · intro dest addr hop _
          have hcases : dest = r 2 ∧ addr = r 1 ∨ dest = r 3 ∧ addr = r 2 := by simpa using hop
          rcases hcases with ⟨rfl, rfl⟩ | ⟨rfl, rfl⟩ <;> rfl
        · intro addr src hop
          simp at hop
        · intro dest src hop
          simp at hop⟩
  have hload := hsat.load (r 2) (r 1) (by simp [hops]) (by decide)
  revert hload
  decide

end Decompiler.Types
