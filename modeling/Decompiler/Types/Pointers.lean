import Decompiler.Library.Saturation
import Decompiler.Types.Saturation

/-! # The inferred pointers

From an empty map only pointers are inferred. Which locations they are is decided by
rules on sets of locations, so that a run types the least set closed under them, whatever
the order of the program.
-/

namespace Decompiler.Types

def rules : Saturation.Rules Instruction Location where
  target op := (target op).map Varnode.location
  Fires op s :=
    match op with
    | .load _ _ | .store _ _ => True
    | .intAdd _ lhs rhs | .intSub _ lhs rhs => lhs.location ∈ s ∨ rhs.location ∈ s
    | .copy _ src => src.location ∈ s
    | .phi _ srcs => ∃ v ∈ srcs, v.location ∈ s
    | _ => False
  mono {op s t} hst h := by
    cases op with
    | load | store => trivial
    | intAdd | intSub => exact h.imp (hst ·) (hst ·)
    | copy => exact hst h
    | phi =>
      obtain ⟨v, hv, hmem⟩ := h
      exact ⟨v, hv, hst hmem⟩
    | _ => exact h

/-- A set of locations that contains the addresses of memory accesses and is closed under
pointer arithmetic, copies and φ-nodes. -/
structure ClosedUnder (ops : List Instruction) (s : Set Location) : Prop where
  load : ∀ dest addr, .load dest addr ∈ ops → addr.space ≠ .constant → addr.location ∈ s
  store : ∀ addr src, .store addr src ∈ ops → addr.space ≠ .constant → addr.location ∈ s
  intAdd : ∀ dest lhs rhs, .intAdd dest lhs rhs ∈ ops →
    lhs.location ∈ s ∨ rhs.location ∈ s → dest.location ∈ s
  intSub : ∀ dest lhs rhs, .intSub dest lhs rhs ∈ ops →
    lhs.location ∈ s ∨ rhs.location ∈ s → dest.location ∈ s
  copy : ∀ dest src, .copy dest src ∈ ops → src.location ∈ s → dest.location ∈ s
  phi : ∀ dest srcs, .phi dest srcs ∈ ops → (∃ v ∈ srcs, v.location ∈ s) → dest.location ∈ s

variable {ops : List Instruction} {op : Instruction} {types : TypeMap} {s : Set Location}

theorem closedUnder_iff : ClosedUnder ops s ↔ rules.Closed {op | op ∈ ops} s := by
  constructor
  · intro h op hop hfires l hl
    obtain ⟨v, hv, rfl⟩ := Option.map_eq_some_iff.mp hl
    cases op with
    | load dest addr =>
      simp only [target, Option.ite_none_left_eq_some, Option.some.injEq] at hv
      obtain ⟨hspace, rfl⟩ := hv
      exact h.load dest addr hop hspace
    | store addr src =>
      simp only [target, Option.ite_none_left_eq_some, Option.some.injEq] at hv
      obtain ⟨hspace, rfl⟩ := hv
      exact h.store addr src hop hspace
    | intAdd dest lhs rhs =>
      obtain rfl := Option.some.inj hv
      exact h.intAdd dest lhs rhs hop hfires
    | intSub dest lhs rhs =>
      obtain rfl := Option.some.inj hv
      exact h.intSub dest lhs rhs hop hfires
    | copy dest src =>
      obtain rfl := Option.some.inj hv
      exact h.copy dest src hop hfires
    | phi dest srcs =>
      obtain rfl := Option.some.inj hv
      exact h.phi dest srcs hop hfires
    | _ => cases hv
  · intro h
    have haddr : ∀ {op : Instruction} {addr : Varnode}, op ∈ ops → rules.Fires op s →
        target op = (if addr.space = .constant then none else some addr) →
        addr.space ≠ .constant → addr.location ∈ s := by
      intro op addr hop hfires htarget hspace
      refine h op hop hfires _ ?_
      rw [if_neg hspace] at htarget
      exact Option.map_eq_some_iff.mpr ⟨addr, htarget, rfl⟩
    constructor
    · exact fun dest addr hop => haddr hop trivial rfl
    · exact fun addr src hop => haddr hop trivial rfl
    · exact fun dest lhs rhs hop hfires => h _ hop hfires _ rfl
    · exact fun dest lhs rhs hop hfires => h _ hop hfires _ rfl
    · exact fun dest src hop hfires => h _ hop hfires _ rfl
    · exact fun dest srcs hop hfires => h _ hop hfires _ rfl

def AllPointers (types : TypeMap) : Prop :=
  ∀ l t, types.lookup l = some t → ∃ inner, t = .pointer inner

theorem AllPointers.pointerEntry_eq (h : AllPointers types) (v : Varnode) :
    pointerEntry types v = types.lookup v.location := by
  cases hv : types.lookup v.location with
  | none => exact pointerEntry_none (by simp [hv])
  | some t =>
    obtain ⟨inner, rfl⟩ := h _ _ hv
    exact pointerEntry_pointer hv

theorem AllPointers.evidence_pointer (h : AllPointers types) {t : DataType}
    (ht : evidence types op = some t) : ∃ inner, t = .pointer inner := by
  cases op with
  | load dest addr | store addr src => exact ⟨_, (Option.some.inj ht).symm⟩
  | intAdd dest lhs rhs | intSub dest lhs rhs =>
    rw [evidence, h.pointerEntry_eq, h.pointerEntry_eq] at ht
    rcases Option.or_eq_some_iff.mp ht with hl | ⟨-, hr⟩
    · exact h _ _ hl
    · exact h _ _ hr
  | copy dest src => exact h _ _ ht
  | phi dest srcs =>
    obtain ⟨v, -, hv⟩ := List.exists_of_findSome?_eq_some ht
    exact h _ _ hv
  | _ => cases ht

theorem AllPointers.insert (h : AllPointers types) (l : Location) (inner : DataType) :
    AllPointers (types.insert l (.pointer inner)) := by
  intro l' t ht
  by_cases hl : l' = l
  · subst hl
    rw [Finmap.lookup_insert] at ht
    exact ⟨inner, (Option.some.inj ht).symm⟩
  · rw [Finmap.lookup_insert_of_ne _ hl] at ht
    exact h l' t ht

theorem AllPointers.step (h : AllPointers types) (op : Instruction) :
    AllPointers (inferOp op types).1 := by
  rcases inferOp_cases op types with hsame | ⟨v, t, -, ht, -, hins⟩
  · rwa [hsame]
  · obtain ⟨inner, rfl⟩ := h.evidence_pointer ht
    rw [hins]
    exact h.insert v.location inner

def typed (types : TypeMap) : Set Location := {l | l ∈ types}

theorem mem_typed_iff {l : Location} : l ∈ typed types ↔ ∃ t, types.lookup l = some t :=
  Finmap.mem_iff

theorem AllPointers.fires_iff (h : AllPointers types) :
    rules.Fires op (typed types) ↔ ∃ t, evidence types op = some t := by
  cases op with
  | load | store => exact ⟨fun _ => ⟨_, rfl⟩, fun _ => trivial⟩
  | intAdd dest lhs rhs | intSub dest lhs rhs =>
    change lhs.location ∈ typed types ∨ rhs.location ∈ typed types ↔ _
    rw [evidence, h.pointerEntry_eq, h.pointerEntry_eq, mem_typed_iff, mem_typed_iff]
    cases types.lookup lhs.location <;> cases types.lookup rhs.location <;> simp
  | copy dest src => exact mem_typed_iff
  | phi dest srcs =>
    change (∃ v ∈ srcs, v.location ∈ typed types) ↔ ∃ t, evidence types (.phi dest srcs) = some t
    simp only [mem_typed_iff, evidence]
    constructor
    · rintro ⟨v, hv, t, ht⟩
      apply Option.ne_none_iff_exists'.mp
      intro hnone
      rw [List.findSome?_eq_none_iff.mp hnone v hv] at ht
      cases ht
    · rintro ⟨t, ht⟩
      obtain ⟨v, hv, hvt⟩ := List.exists_of_findSome?_eq_some ht
      exact ⟨v, hv, t, hvt⟩
  | _ => simp [rules, evidence]

/-- One rule types the location that it adds to the set of typed locations. -/
theorem AllPointers.mem_typed_step (h : AllPointers types) (op : Instruction) (l : Location) :
    l ∈ typed (inferOp op types).1 ↔ l ∈ typed types ∪ rules.adds op (typed types) := by
  have hadds : ∀ {v : Varnode}, target op = some v →
      (l ∈ rules.adds op (typed types) ↔ (∃ t, evidence types op = some t) ∧ v.location = l) := by
    intro v hv
    rw [← h.fires_iff]
    simp [Saturation.Rules.adds, rules, hv]
  cases hv : target op with
  | none =>
    have hidle : l ∉ rules.adds op (typed types) := by
      simp [Saturation.Rules.adds, rules, hv]
    simp [inferOp_eq_same hv, hidle]
  | some v =>
    rw [Set.mem_union, hadds hv, inferOp_eq_applyRule hv]
    cases evidence types op with
    | none => simp [applyRule]
    | some t =>
      by_cases hmem : v.location ∈ types
      · have hin : v.location = l → l ∈ typed types := by
          rintro rfl
          exact hmem
        simpa [applyRule, insertNew, hmem] using hin
      · simp [applyRule, insertNew, hmem, typed, or_comm, eq_comm]

theorem inferAll_pointers (ops : List Instruction) :
    AllPointers (inferAll ops ∅) ∧ typed (inferAll ops ∅) = rules.reached ops := by
  induction ops using List.reverseRecOn with
  | nil =>
    constructor
    · intro l t h
      simp at h
    · ext l
      exact iff_of_false Finmap.notMem_empty (Set.notMem_empty l)
  | append_singleton ops op ih =>
    obtain ⟨hp, htyped⟩ := ih
    rw [inferAll_concat]
    constructor
    · exact hp.step op
    · ext l
      rw [hp.mem_typed_step op l, rules.reached_concat, htyped]

theorem AllPointers.closed_of_saturated (h : AllPointers types) (hsat : Saturated ops types) :
    rules.Closed {op | op ∈ ops} (typed types) := by
  intro op hop hfires l htarget
  have hstep : l ∈ typed (inferOp op types).1 :=
    (h.mem_typed_step op l).mpr (Or.inr ⟨hfires, htarget⟩)
  rwa [hsat op hop] at hstep

/-- A run from an empty map leaves some scans' pointers, at a closed set of locations. -/
theorem run_pointers {f : Function} (hempty : f.types = ∅) :
    ∃ n, run f = .ok { f with types := inferAll (scans n (programOps f)) ∅ } ∧
      IsLeast {s | ClosedUnder (programOps f) s} (rules.reached (scans n (programOps f))) := by
  obtain ⟨n, hrun, hsat⟩ := run_eq_scans f
  rw [hempty] at hrun hsat
  obtain ⟨hp, htyped⟩ := inferAll_pointers (scans n (programOps f))
  have hclosed := hp.closed_of_saturated hsat
  rw [htyped] at hclosed
  refine ⟨n, hrun, ?_⟩
  simp only [closedUnder_iff]
  exact Saturation.Rules.isLeast_reached (fun op => mem_of_mem_scans) hclosed

theorem ClosedUnder.perm {ops' : List Instruction} (hperm : ops'.Perm ops) :
    ClosedUnder ops' s ↔ ClosedUnder ops s := by
  simp only [closedUnder_iff, hperm.mem_iff]

/-- From an empty map a run types the least closed set of locations, all as pointers, and a
function with the same operations in another order gets the same locations typed. -/
theorem run_isLeast (f : Function) (hempty : f.types = ∅) :
    ∃ types, run f = .ok { f with types := types } ∧
      (∀ l t, types.lookup l = some t → ∃ inner, t = .pointer inner) ∧
      IsLeast {s | ClosedUnder (programOps f) s} {l | l ∈ types} ∧
      ∀ g : Function, g.types = ∅ → (programOps g).Perm (programOps f) →
        ∃ types', run g = .ok { g with types := types' } ∧ ∀ l, l ∈ types' ↔ l ∈ types := by
  obtain ⟨n, hrun, hleast⟩ := run_pointers hempty
  obtain ⟨hp, htyped⟩ := inferAll_pointers (scans n (programOps f))
  rw [← htyped] at hleast
  refine ⟨_, hrun, hp, hleast, ?_⟩
  intro g hg hperm
  obtain ⟨m, hrun', hleast'⟩ := run_pointers hg
  refine ⟨_, hrun', ?_⟩
  rw [← (inferAll_pointers (scans m (programOps g))).2] at hleast'
  simp only [ClosedUnder.perm hperm] at hleast'
  exact Set.ext_iff.mp (hleast'.unique hleast)

/-- `r2 = *r1; r3 = *r2` on registers of 8 bytes. -/
def dependentLoads : Function :=
  let r (id : UInt64) := Varnode.new .register id 8
  { Function.new "dependent_loads" 0 with
    blocks := [(BasicBlock.new 0).push 0 [.load (r 2) (r 1), .load (r 3) (r 2)]] }

theorem run_isLeast_dependentLoads :
    ∃ types, run dependentLoads = .ok { dependentLoads with types := types } ∧
      (∀ l t, types.lookup l = some t → ∃ inner, t = .pointer inner) ∧
      IsLeast {s | ClosedUnder (programOps dependentLoads) s} {l | l ∈ types} ∧
      ∀ g : Function, g.types = ∅ → (programOps g).Perm (programOps dependentLoads) →
        ∃ types', run g = .ok { g with types := types' } ∧ ∀ l, l ∈ types' ↔ l ∈ types :=
  run_isLeast dependentLoads rfl

end Decompiler.Types
