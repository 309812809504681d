import Decompiler.Types.Termination
import Decompiler.Library.Fallible

/-! # Type inference saturates

The rule of an operation has a target and offers it a type, which an untyped target
takes. A run applies the rules of the operations in program order, again and again, and
stops at a map that no rule can extend.
-/

namespace Decompiler.Types

/-- The varnode to which the rule of an operation can give a type. -/
def target : Instruction → Option Varnode
  | .load _ addr | .store addr _ => if addr.space = .constant then none else some addr
  | .intAdd dest _ _ | .intSub dest _ _ | .copy dest _ | .phi dest _ => some dest
  | _ => none

def pointerEntry (types : TypeMap) (v : Varnode) : Option DataType :=
  match types.lookup v.location with
  | some (.pointer inner) => some (.pointer inner)
  | _ => none

/-- The type that the rule of an operation gives to its target. -/
def evidence (types : TypeMap) : Instruction → Option DataType
  | .load dest _ => some (.pointer (accessType types dest))
  | .store _ src => some (.pointer (accessType types src))
  | .intAdd _ lhs rhs | .intSub _ lhs rhs => (pointerEntry types lhs).or (pointerEntry types rhs)
  | .copy _ src => types.lookup src.location
  | .phi _ srcs => srcs.findSome? fun s => types.lookup s.location
  | _ => none

variable {ops : List Instruction} {op : Instruction} {types : TypeMap} {v : Varnode} {t : DataType}

theorem pointerEntry_pointer {inner : DataType} (h : types.lookup v.location = some (.pointer inner)) :
    pointerEntry types v = some (.pointer inner) := by
  rw [pointerEntry, h]

theorem pointerEntry_none (h : ∀ inner, types.lookup v.location ≠ some (.pointer inner)) :
    pointerEntry types v = none := by
  unfold pointerEntry
  split
  case h_1 inner hv => exact absurd hv (h inner)
  case h_2 => rfl

theorem target_mem_varnodes (h : target op = some v) : v ∈ varnodes op := by
  cases op <;> simp_all [target, varnodes]

/-- The rule of an operation with a target: the type that it offers, if any, is taken. -/
def applyRule (types : TypeMap) (dest : Varnode) : Option DataType → TypeMap × Bool
  | some t => insertNew types dest t
  | none => (types, false)

theorem inferAddress_eq_insertNew {addr accessed : Varnode} (h : addr.space ≠ .constant) :
    inferAddress types addr accessed =
      insertNew types addr (.pointer (accessType types accessed)) := by
  by_cases hmem : addr.location ∈ types <;> simp [inferAddress, insertNew, h, hmem]

theorem inferOp_arithmetic {dest lhs rhs : Varnode}
    (h : op = .intAdd dest lhs rhs ∨ op = .intSub dest lhs rhs) :
    inferOp op types =
      applyRule types dest ((pointerEntry types lhs).or (pointerEntry types rhs)) := by
  have hop : inferOp op types = inferOp (.intAdd dest lhs rhs) types := by
    rcases h with rfl | rfl <;> rfl
  rw [hop]
  simp only [inferOp]
  split
  case h_1 inner hl => rw [pointerEntry_pointer hl, Option.some_or, applyRule]
  case h_2 hl =>
    rw [pointerEntry_none hl, Option.none_or]
    split
    case h_1 inner hr => rw [pointerEntry_pointer hr, applyRule]
    case h_2 hr => rw [pointerEntry_none hr, applyRule]

theorem inferOp_eq_applyRule (hv : target op = some v) :
    inferOp op types = applyRule types v (evidence types op) := by
  cases op with
  | load dest addr | store addr src =>
    simp only [target, Option.ite_none_left_eq_some, Option.some.injEq] at hv
    obtain ⟨hspace, rfl⟩ := hv
    exact inferAddress_eq_insertNew hspace
  | intAdd dest lhs rhs =>
    obtain rfl := Option.some.inj hv
    exact inferOp_arithmetic (Or.inl rfl)
  | intSub dest lhs rhs =>
    obtain rfl := Option.some.inj hv
    exact inferOp_arithmetic (Or.inr rfl)
  | copy dest src =>
    obtain rfl := Option.some.inj hv
    simp only [inferOp, evidence]
    cases types.lookup src.location <;> rfl
  | phi dest srcs =>
    obtain rfl := Option.some.inj hv
    simp only [inferOp, evidence]
    cases srcs.findSome? fun s => types.lookup s.location <;> rfl
  | _ => cases hv

theorem inferOp_eq_same (h : target op = none) : inferOp op types = (types, false) := by
  cases op with
  | load dest addr | store addr src =>
    have hspace : addr.space = .constant := by simpa [target] using h
    simp [inferOp, inferAddress, hspace]
  | intAdd | intSub | copy | phi => cases h
  | _ => rfl

/-- All that the rule of an operation can do. -/
theorem inferOp_cases (op : Instruction) (types : TypeMap) :
    inferOp op types = (types, false) ∨
      ∃ v t, target op = some v ∧ evidence types op = some t ∧ v.location ∉ types ∧
        inferOp op types = (types.insert v.location t, true) := by
  cases hv : target op with
  | none => exact Or.inl (inferOp_eq_same hv)
  | some v =>
    rw [inferOp_eq_applyRule hv]
    cases ht : evidence types op with
    | none => exact Or.inl rfl
    | some t =>
      by_cases hmem : v.location ∈ types
      · exact Or.inl (by rw [applyRule, insertNew, if_pos hmem])
      · exact Or.inr ⟨v, t, rfl, rfl, hmem, by rw [applyRule, insertNew, if_neg hmem]⟩

theorem inferOp_false (h : (inferOp op types).2 = false) : inferOp op types = (types, false) := by
  rcases inferOp_cases op types with hsame | ⟨v, t, -, -, -, hins⟩
  · exact hsame
  · simp [hins] at h

theorem inferOp_lookup {l : Location} (h : types.lookup l = some t) :
    (inferOp op types).1.lookup l = some t := by
  rcases inferOp_cases op types with hsame | ⟨v, t', -, -, hnew, hins⟩
  · rwa [hsame]
  · have hne : l ≠ v.location := by
      rintro rfl
      exact hnew (Finmap.mem_iff.mpr ⟨t, h⟩)
    rwa [hins, Finmap.lookup_insert_of_ne _ hne]

def inferAll (ops : List Instruction) (types : TypeMap) : TypeMap :=
  ops.foldl (fun types op => (inferOp op types).1) types

@[simp] theorem inferAll_nil : inferAll [] types = types := rfl

theorem inferAll_append (ops ops' : List Instruction) :
    inferAll (ops ++ ops') types = inferAll ops' (inferAll ops types) := by
  simp [inferAll]

theorem inferAll_concat (ops : List Instruction) (op : Instruction) :
    inferAll (ops ++ [op]) types = (inferOp op (inferAll ops types)).1 := by
  simp [inferAll]

theorem inferAll_lookup {l : Location} (h : types.lookup l = some t) :
    (inferAll ops types).lookup l = some t := by
  induction ops using List.reverseRecOn with
  | nil => exact h
  | append_singleton ops op ih =>
    rw [inferAll_concat]
    exact inferOp_lookup ih

theorem mem_inferAll {l : Location} (h : l ∈ inferAll ops types) :
    l ∈ types ∨ ∃ op ∈ ops, ∃ v ∈ varnodes op, v.location = l := by
  induction ops using List.reverseRecOn with
  | nil => exact Or.inl h
  | append_singleton ops op ih =>
    have hold : l ∈ inferAll ops types →
        l ∈ types ∨ ∃ o ∈ ops ++ [op], ∃ v ∈ varnodes o, v.location = l := by
      intro hl
      rcases ih hl with hl | ⟨o, ho, hocc⟩
      · exact Or.inl hl
      · exact Or.inr ⟨o, List.mem_append_left _ ho, hocc⟩
    rw [inferAll_concat] at h
    rcases inferOp_cases op (inferAll ops types) with hsame | ⟨v, t, hv, -, -, hins⟩
    · exact hold (by rwa [hsame] at h)
    · rw [hins] at h
      rcases Finmap.mem_insert.mp h with hl | hl
      · exact Or.inr ⟨op, by simp, v, target_mem_varnodes hv, hl.symm⟩
      · exact hold hl

/-- No operation can add an entry. -/
def Saturated (ops : List Instruction) (types : TypeMap) : Prop :=
  ∀ op ∈ ops, inferOp op types = (types, false)

theorem inferScan_concat (ops : List Instruction) (op : Instruction) :
    inferScan (ops ++ [op]) types =
      ((inferOp op (inferScan ops types).1).1,
        (inferScan ops types).2 || (inferOp op (inferScan ops types).1).2) := by
  simp [inferScan]

theorem inferScan_fst (ops : List Instruction) (types : TypeMap) :
    (inferScan ops types).1 = inferAll ops types := by
  induction ops using List.reverseRecOn with
  | nil => rfl
  | append_singleton ops op ih => simp only [inferScan_concat, inferAll_concat, ih]

theorem inferScan_eq_false_iff :
    inferScan ops types = (types, false) ↔ Saturated ops types := by
  constructor
  · intro h
    induction ops using List.reverseRecOn with
    | nil =>
      intro op hop
      cases hop
    | append_singleton ops op ih =>
      have hsnd := congrArg Prod.snd h
      simp only [inferScan_concat, Bool.or_eq_false_iff] at hsnd
      have hfst := (inferScan_extends ops types).same hsnd.1
      have hold : Saturated ops types := ih (Prod.ext hfst hsnd.1)
      have hlast : inferOp op types = (types, false) := inferOp_false (by rw [← hfst]; exact hsnd.2)
      intro o ho
      rcases List.mem_append.mp ho with ho | ho
      · exact hold o ho
      · obtain rfl := List.mem_singleton.mp ho
        exact hlast
  · intro h
    induction ops using List.reverseRecOn with
    | nil => rfl
    | append_singleton ops op ih =>
      have hold := ih fun o ho => h o (List.mem_append_left _ ho)
      simp only [inferScan_concat, hold, h op (by simp), Bool.or_false]

def scans (n : ℕ) (ops : List Instruction) : List Instruction := (List.replicate n ops).flatten

theorem scans_succ (n : ℕ) (ops : List Instruction) : scans (n + 1) ops = ops ++ scans n ops := by
  simp [scans, List.replicate_succ]

theorem mem_of_mem_scans {n : ℕ} (h : op ∈ scans n ops) : op ∈ ops := by
  obtain ⟨l, hl, hop⟩ := List.mem_flatten.mp h
  rwa [List.eq_of_mem_replicate hl] at hop

theorem inferLoop_ok {fuel : ℕ} {types' : TypeMap} (h : inferLoop ops fuel types = .ok types') :
    ∃ n, types' = inferAll (scans n ops) types ∧ Saturated ops types' := by
  induction fuel generalizing types with
  | zero => cases h
  | succ fuel ih =>
    rw [inferLoop] at h
    have hfst := inferScan_fst ops types
    generalize hscan : inferScan ops types = result at h hfst
    obtain ⟨next, changed⟩ := result
    cases changed with
    | true =>
      obtain ⟨n, hn, hsat⟩ := ih h
      exact ⟨n + 1, by rw [hn, scans_succ, inferAll_append, ← hfst], hsat⟩
    | false =>
      obtain rfl := Except.ok.inj h
      have hsame : next = types := by
        simpa [hscan] using (inferScan_extends ops types).same
      subst hsame
      exact ⟨0, rfl, inferScan_eq_false_iff.mp hscan⟩

theorem inferLoop_of_saturated {fuel : ℕ} (h : Saturated ops types) (hfuel : 0 < fuel) :
    inferLoop ops fuel types = .ok types := by
  cases fuel with
  | zero => exact absurd hfuel (Nat.lt_irrefl 0)
  | succ fuel => rw [inferLoop, inferScan_eq_false_iff.mpr h]

theorem inferLoop_mono {fuel fuel' : ℕ} {types' : TypeMap} (hle : fuel ≤ fuel')
    (h : inferLoop ops fuel types = .ok types') : inferLoop ops fuel' types = .ok types' := by
  induction fuel generalizing fuel' types with
  | zero => cases h
  | succ fuel ih =>
    obtain ⟨m, rfl⟩ := Nat.exists_eq_add_of_le hle
    rw [Nat.add_right_comm]
    rw [inferLoop] at h ⊢
    split
    case h_1 next hscan => exact ih (Nat.le_add_right fuel m) (by simpa [hscan] using h)
    case h_2 next hscan => simpa [hscan] using h

abbrev programOps (f : Function) : List Instruction := f.blocks.flatMap BasicBlock.ops

theorem run_eq_ok_iff {f : Function} : run f = .ok { f with types := types } ↔
    inferLoop (programOps f) (inferFuel (programOps f)) f.types = .ok types := by
  constructor
  · intro h
    obtain ⟨types', hloop, heq⟩ := Fallible.bind_eq_ok.mp h
    have hsame : types' = types := congrArg Function.types (Except.ok.inj heq)
    rwa [hsame] at hloop
  · intro h
    exact Fallible.bind_eq_ok.mpr ⟨types, h, rfl⟩

/-- Type inference applies the rules in some number of scans, and leaves them idle. -/
theorem run_eq_scans (f : Function) :
    ∃ n, run f = .ok { f with types := inferAll (scans n (programOps f)) f.types } ∧
      Saturated (programOps f) (inferAll (scans n (programOps f)) f.types) := by
  obtain ⟨types, hrun⟩ := run_eq_ok f
  obtain ⟨n, rfl, hsat⟩ := inferLoop_ok (run_eq_ok_iff.mp hrun)
  exact ⟨n, hrun, hsat⟩

/-- Type inference ends with the entries it started from and new ones for occurring varnodes,
and then no operation can add an entry. -/
theorem run_saturates (f : Function) :
    ∃ types, run f = .ok { f with types := types } ∧
      (∀ fuel ≥ inferFuel (programOps f), inferLoop (programOps f) fuel f.types = .ok types) ∧
      (∀ l t, f.types.lookup l = some t → types.lookup l = some t) ∧
      (∀ l ∈ types, l ∉ f.types → ∃ op ∈ programOps f, ∃ v ∈ varnodes op, v.location = l) ∧
      (∀ op ∈ programOps f, inferOp op types = (types, false)) ∧
      run { f with types := types } = .ok { f with types := types } := by
  obtain ⟨n, hrun, hsat⟩ := run_eq_scans f
  refine ⟨_, hrun, ?_, ?_, ?_, hsat, ?_⟩
  · intro fuel hfuel
    exact inferLoop_mono hfuel (run_eq_ok_iff.mp hrun)
  · intro l t h
    exact inferAll_lookup h
  · intro l hl hnew
    rcases mem_inferAll hl with hold | ⟨op, hop, hocc⟩
    · exact absurd hold hnew
    · exact ⟨op, mem_of_mem_scans hop, hocc⟩
  · apply run_eq_ok_iff.mpr
    exact inferLoop_of_saturated hsat (Nat.succ_pos _)

end Decompiler.Types
