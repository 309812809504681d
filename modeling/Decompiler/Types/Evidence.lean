import Decompiler.Types.Pointers

/-! # Where the inferred types come from

An entry is made once, by one visit of one operation, from what the map holds at that
visit. The history of visits is that of the scans in program order, so that the rules on
sets of locations tell which visit makes an entry and what it sees.
-/

namespace Decompiler.Types

/-- The operations visited up to some point of the repeated scans. -/
def History (ops h : List Instruction) : Prop := ∃ n, h <+: scans n ops

/-- The visit of `op` after the history `h` types the location `l`. -/
structure Enters (ops h : List Instruction) (op : Instruction) (l : Location) : Prop where
  history : History ops (h ++ [op])
  introduces : rules.Introduces h op l

def accessed : Instruction → Option Varnode
  | .load dest _ => some dest
  | .store _ src => some src
  | _ => none

/-- The operand of an operation whose type is passed on when a set of locations is typed. -/
inductive Passes (s : Set Location) : Instruction → Varnode → Prop
  | addLeft {dest lhs rhs} : lhs.location ∈ s → Passes s (.intAdd dest lhs rhs) lhs
  | addRight {dest lhs rhs} : lhs.location ∉ s → rhs.location ∈ s →
      Passes s (.intAdd dest lhs rhs) rhs
  | subLeft {dest lhs rhs} : lhs.location ∈ s → Passes s (.intSub dest lhs rhs) lhs
  | subRight {dest lhs rhs} : lhs.location ∉ s → rhs.location ∈ s →
      Passes s (.intSub dest lhs rhs) rhs
  | copy {dest src} : src.location ∈ s → Passes s (.copy dest src) src
  | phi {dest before v after} : (∀ u ∈ before, u.location ∉ s) → v.location ∈ s →
      Passes s (.phi dest (before ++ v :: after)) v

variable {ops h h' : List Instruction} {op : Instruction} {types : TypeMap} {s : Set Location}
  {v : Varnode} {l : Location}

theorem Passes.mem (h : Passes s op v) : v.location ∈ s := by cases h <;> assumption

theorem exists_passes (hfires : rules.Fires op s) : (∃ v, accessed op = some v) ∨
    ∃ v, Passes s op v := by
  cases op with
  | load dest addr => exact Or.inl ⟨dest, rfl⟩
  | store addr src => exact Or.inl ⟨src, rfl⟩
  | intAdd dest lhs rhs =>
    by_cases hl : lhs.location ∈ s
    · exact Or.inr ⟨lhs, .addLeft hl⟩
    · exact Or.inr ⟨rhs, .addRight hl (hfires.resolve_left hl)⟩
  | intSub dest lhs rhs =>
    by_cases hl : lhs.location ∈ s
    · exact Or.inr ⟨lhs, .subLeft hl⟩
    · exact Or.inr ⟨rhs, .subRight hl (hfires.resolve_left hl)⟩
  | copy dest src => exact Or.inr ⟨src, .copy hfires⟩
  | phi dest srcs =>
    classical
    obtain ⟨u, hu, hmem⟩ := hfires
    have hsome : (srcs.find? fun v => v.location ∈ s).isSome :=
      List.find?_isSome.mpr ⟨u, hu, by simpa using hmem⟩
    obtain ⟨v, hv⟩ := Option.isSome_iff_exists.mp hsome
    obtain ⟨hin, before, after, rfl, hbefore⟩ := List.find?_eq_some_iff_append.mp hv
    exact Or.inr ⟨v, .phi (by simpa using hbefore) (by simpa using hin)⟩
  | _ => exact hfires.elim

theorem evidence_accessed (h : accessed op = some v) :
    evidence types op = some (.pointer (accessType types v)) := by
  cases op with
  | load | store =>
    obtain rfl := Option.some.inj h
    rfl
  | _ => cases h

theorem AllPointers.evidence_passes (hp : AllPointers types) (h : Passes (typed types) op v) :
    evidence types op = types.lookup v.location := by
  have hnone : ∀ {u : Varnode}, u.location ∉ typed types → types.lookup u.location = none :=
    Finmap.lookup_eq_none.mpr
  cases h with
  | addLeft hl | subLeft hl =>
    obtain ⟨t, ht⟩ := mem_typed_iff.mp hl
    rw [evidence, hp.pointerEntry_eq, ht, Option.some_or]
  | addRight hl hr | subRight hl hr =>
    rw [evidence, hp.pointerEntry_eq, hp.pointerEntry_eq, hnone hl, Option.none_or]
  | copy => rfl
  | @phi dest before v after hbefore hmem =>
    obtain ⟨t, ht⟩ := mem_typed_iff.mp hmem
    have hskip : before.findSome? (fun u => types.lookup u.location) = none :=
      List.findSome?_eq_none_iff.mpr fun u hu => hnone (hbefore u hu)
    simp only [evidence, List.findSome?_append, hskip, Option.none_or, List.findSome?_cons, ht]

theorem scans_mono {n m : ℕ} (hle : n ≤ m) (ops : List Instruction) :
    scans n ops <+: scans m ops := by
  obtain ⟨k, rfl⟩ := Nat.exists_eq_add_of_le hle
  rw [scans, scans, List.replicate_add, List.flatten_append]
  exact List.prefix_append _ _

theorem History.of_prefix (hh : History ops h) (hp : h' <+: h) : History ops h' := by
  obtain ⟨n, hn⟩ := hh
  exact ⟨n, hp.trans hn⟩

theorem History.common (hh : History ops h) (hh' : History ops h') :
    ∃ n, h <+: scans n ops ∧ h' <+: scans n ops := by
  obtain ⟨n, hn⟩ := hh
  obtain ⟨m, hm⟩ := hh'
  exact ⟨max n m, hn.trans (scans_mono (Nat.le_max_left n m) ops),
    hm.trans (scans_mono (Nat.le_max_right n m) ops)⟩

theorem Enters.op_mem (he : Enters ops h op l) : op ∈ ops := by
  obtain ⟨n, hn⟩ := he.history
  exact mem_of_mem_scans (hn.subset (by simp))

/-- Induction over the entries in the order in which they are made. -/
theorem History.induction {P : Location → Prop}
    (step : ∀ h op l, Enters ops h op l → (∀ l' ∈ rules.reached h, P l') → P l)
    (hh : History ops h) : ∀ l ∈ rules.reached h, P l := by
  induction h using List.reverseRecOn with
  | nil => simp
  | append_singleton h op ih =>
    have hbefore := ih (hh.of_prefix (List.prefix_append h [op]))
    intro l hl
    by_cases hold : l ∈ rules.reached h
    · exact hbefore l hold
    · obtain ⟨hfires, htarget⟩ := (rules.mem_reached_concat.mp hl).resolve_left hold
      exact step h op l ⟨hh, hold, hfires, htarget⟩ hbefore

abbrev after (h : List Instruction) : TypeMap := inferAll h ∅

theorem mem_typed_after : l ∈ typed (after h) ↔ l ∈ rules.reached h := by
  rw [(inferAll_pointers h).2]

/-- A map that the scans have left and cannot extend. -/
def Inferred (ops : List Instruction) (types : TypeMap) : Prop :=
  ∃ n, types = after (scans n ops) ∧ Saturated ops types

theorem run_inferred {f : Function} (hempty : f.types = ∅)
    (h : run f = .ok { f with types := types }) : Inferred (programOps f) types := by
  obtain ⟨n, hrun, hsat⟩ := run_eq_scans f
  have hsame : types = after (scans n (programOps f)) := by
    rw [hrun, hempty] at h
    exact (congrArg Function.types (Except.ok.inj h)).symm
  refine ⟨n, hsame, ?_⟩
  rwa [hsame, after, ← hempty]

theorem inferAll_saturated (hsat : Saturated ops types) (hh : ∀ op ∈ h, op ∈ ops) :
    inferAll h types = types := by
  induction h using List.reverseRecOn with
  | nil => rfl
  | append_singleton h op ih =>
    rw [inferAll_concat, ih fun o ho => hh o (List.mem_append_left _ ho),
      hsat op (hh op (by simp))]

namespace Inferred

variable (hi : Inferred ops types)

include hi

theorem allPointers : AllPointers types := by
  obtain ⟨n, rfl, -⟩ := hi
  exact (inferAll_pointers _).1

theorem lookup_after {t : DataType} (hh : History ops h) (hl : (after h).lookup l = some t) :
    types.lookup l = some t := by
  obtain ⟨n, rfl, hsat⟩ := hi
  obtain ⟨k, ⟨rest, hrest⟩, ⟨more, hmore⟩⟩ := hh.common ⟨n, List.prefix_rfl⟩
  have hlong : (after (scans k ops)).lookup l = some t := by
    rw [← hrest, after, inferAll_append]
    exact inferAll_lookup hl
  have hsame : after (scans k ops) = after (scans n ops) := by
    rw [← hmore, after, inferAll_append]
    refine inferAll_saturated hsat fun op hop => mem_of_mem_scans (n := k) ?_
    rw [← hmore]
    exact List.mem_append_right _ hop
  rwa [← hsame]

theorem mem_iff : l ∈ types ↔ ∃ h, History ops h ∧ l ∈ rules.reached h := by
  constructor
  · intro hl
    obtain ⟨n, rfl, -⟩ := hi
    exact ⟨scans n ops, ⟨n, List.prefix_rfl⟩, mem_typed_after.mp hl⟩
  · rintro ⟨h, hh, hl⟩
    obtain ⟨t, ht⟩ := mem_typed_iff.mp (mem_typed_after.mpr hl)
    exact Finmap.mem_iff.mpr ⟨t, hi.lookup_after hh ht⟩

theorem mem_of_reached (hh : History ops h) (hl : l ∈ rules.reached h) : l ∈ types :=
  hi.mem_iff.mpr ⟨h, hh, hl⟩

/-- Until the location is typed, its type at the end is the one in the map so far. -/
theorem lookup_eq (hh : History ops h) (hl : l ∈ rules.reached h) :
    types.lookup l = (after h).lookup l := by
  obtain ⟨t, ht⟩ := mem_typed_iff.mp (mem_typed_after.mpr hl)
  rw [hi.lookup_after hh ht, ht]

theorem lookup_enters (he : Enters ops h op l) : types.lookup l = evidence (after h) op := by
  obtain ⟨v, hv, rfl⟩ := Option.map_eq_some_iff.mp he.introduces.target
  have hp := (inferAll_pointers h).1
  obtain ⟨t, ht⟩ : ∃ t, evidence (after h) op = some t := by
    apply hp.fires_iff.mp
    rw [(inferAll_pointers h).2]
    exact he.introduces.fires
  have hnew : v.location ∉ after h := fun hmem => he.introduces.new (mem_typed_after.mp hmem)
  rw [ht]
  apply hi.lookup_after he.history
  rw [after, inferAll_concat, inferOp_eq_applyRule hv, ht, applyRule, insertNew, if_neg hnew,
    Finmap.lookup_insert]

theorem lookup_enters_access (he : Enters ops h op l) (hv : accessed op = some v) :
    types.lookup l = some (.pointer (accessType (after h) v)) := by
  rw [hi.lookup_enters he, evidence_accessed hv]

theorem lookup_enters_passes (he : Enters ops h op l) (hv : Passes (rules.reached h) op v) :
    types.lookup l = types.lookup v.location := by
  have hhist := he.history.of_prefix (List.prefix_append h [op])
  rw [hi.lookup_enters he, hi.lookup_eq hhist hv.mem]
  apply (inferAll_pointers h).1.evidence_passes
  rwa [(inferAll_pointers h).2]

end Inferred

end Decompiler.Types
