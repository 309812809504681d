import Decompiler.ConstProp.Preservation

/-! # Constants across calls

A call names no destination, so the analysis keeps every constant across it. In a
straight-line function the result is sound exactly when the calls leave, in the
registers that are read as constants, values that make no difference.
-/

namespace Decompiler.ConstProp

open Cfg Dataflow

section Clobber

def gpr (l : Location) : Option X86.Reg32 :=
  [X86.Reg32.eax, .ecx, .edx, .ebx, .esp, .ebp, .esi, .edi].find?
    fun r => (X86.regVarnode r).location = l

def clobber (values : X86.Reg32 → UInt32) (σ : State) : State :=
  { σ with cells := fun l => (gpr l).elim (σ.cells l) fun r => (values r).toNat }

theorem cells_clobber (values : X86.Reg32 → UInt32) (σ : State) (l : Location) :
    (clobber values σ).cells l = (gpr l).elim (σ.cells l) fun r => (values r).toNat := rfl

theorem gpr_eq_some {l : Location} {r : X86.Reg32} (h : gpr l = some r) :
    (X86.regVarnode r).location = l := by simpa using List.find?_some h

theorem gpr_of_constant {l : Location} (h : l.space = .constant) : gpr l = none := by
  rw [Option.eq_none_iff_forall_ne_some]
  rintro r hr
  rw [← gpr_eq_some hr] at h
  cases h

theorem bounded_clobber {σ : State} (h : σ.Bounded) (values : X86.Reg32 → UInt32) :
    (clobber values σ).Bounded := by
  intro l
  cases hr : gpr l with
  | none => simpa [clobber, hr] using h l
  | some r =>
    have hcell : (clobber values σ).cells l = (values r).toNat := by simp [clobber, hr]
    have hsize : modulus l.size = 2 ^ 32 := by rw [← gpr_eq_some hr]; rfl
    rw [hcell, hsize]
    exact (values r).toNat_lt

/-- What the last call left at a location that no operation assigned since. -/
def lastLeft (effect : ℕ → X86.Reg32 → UInt32) (ops : List Instruction) (l : Location) :
    ℕ → Option UInt32
  | 0 => none
  | i + 1 =>
    match ops[i]? with
    | some (.call _) => (gpr l).map (effect i)
    | some op =>
      if op.opDest.map Varnode.location = some l then none else lastLeft effect ops l i
    | none => lastLeft effect ops l i

/-- The content of a location that was assigned a constant, after the calls since then. -/
def content (effect : ℕ → X86.Reg32 → UInt32) (ops : List Instruction) (i : ℕ) (l : Location)
    (x : UInt64) : UInt64 :=
  (lastLeft effect ops l i).elim x UInt32.toUInt64

/-- The state before operation `i`, where the call at each position has its own effect. -/
def stateAt (effect : ℕ → X86.Reg32 → UInt32) (ops : List Instruction) (σ : State) :
    ℕ → Option State
  | 0 => some σ
  | i + 1 => (stateAt effect ops σ i).bind fun τ =>
      ops[i]?.bind fun op => op.exec (fun _ => clobber (effect i)) τ

end Clobber

/-- The operands of a rewritten operation have the values of those they replace, and a
folded operation does what the operation computes. -/
structure Justified (callee : BranchTarget → State → State) (τ : State)
    (op rewritten : Instruction) : Prop where
  operands : rewritten.operands.length = op.operands.length →
    ∀ p ∈ op.operands.zip rewritten.operands, τ.read p.1 = τ.read p.2
  folded : rewritten.operands.length ≠ op.operands.length →
    rewritten.exec callee τ = op.exec callee τ

/-- The constants known of the operands make no difference to an operation: an
operation on two constants computes the same on their contents, and in any other
operation the contents are the constants. -/
structure Survives (known : Location → UInt64 → Prop) (content : Location → UInt64 → UInt64)
    (op : Instruction) : Prop where
  folded : ∀ {dest lhs rhs f x y}, Binop op dest lhs rhs f → known lhs.location x →
    known rhs.location y → f (content lhs.location x) (content rhs.location y) = f x y
  replaced : (∀ {dest lhs rhs f x y}, Binop op dest lhs rhs f → known lhs.location x →
    ¬ known rhs.location y) → ∀ v ∈ op.operands, ∀ x, known v.location x →
      content v.location x = x

section Operation

variable {op : Instruction} {s : ConstState} {σ : State} {callee : BranchTarget → State → State}

theorem Binop.unique {dest lhs rhs dest' lhs' rhs' : Varnode}
    {f g : UInt64 → UInt64 → UInt64} (h : Binop op dest lhs rhs f)
    (h' : Binop op dest' lhs' rhs' g) : dest = dest' ∧ lhs = lhs' ∧ rhs = rhs' ∧ f = g := by
  cases h <;> cases h' <;> exact ⟨rfl, rfl, rfl, rfl⟩

/-- What an operation is rewritten to: one with two operands known is folded, and any
other one keeps its shape. -/
inductive Rewrites (s : ConstState) (op : Instruction) : Instruction → Prop
  | folded {dest lhs rhs : Varnode} {f : UInt64 → UInt64 → UInt64} {x y : UInt64}
    (bin : Binop op dest lhs rhs f) (left : s.get lhs.location = .const x)
    (right : s.get rhs.location = .const y) :
    Rewrites s op (.copy dest (.constant (f x y) dest.size))
  | kept {rewritten : Instruction}
    (unknown : ∀ {dest lhs rhs f x y}, Binop op dest lhs rhs f → s.get lhs.location = .const x →
      ¬ s.get rhs.location = .const y)
    (operands : rewritten.operands = op.operands.map (substitute · s)) : Rewrites s op rewritten

theorem rewrites_foldBinop {bin : Varnode → Varnode → Varnode → Instruction}
    {dest lhs rhs : Varnode} {f : UInt64 → UInt64 → UInt64}
    (hbin : ∀ l r, (bin dest l r).operands = [l, r]) (h : Binop (bin dest lhs rhs) dest lhs rhs f) :
    Rewrites s (bin dest lhs rhs) (foldBinop bin dest lhs rhs s f) := by
  unfold foldBinop foldOrKeep
  split
  case h_1 x y hx hy => exact .folded h hx hy
  case h_2 hne =>
    refine .kept (fun h' hx hy => ?_) ?_
    · obtain ⟨rfl, rfl, rfl, rfl⟩ := h.unique h'
      exact hne _ _ hx hy
    · rw [Option.getD_none, hbin, hbin]
      rfl

theorem substituteAndFold_rewrites (op : Instruction) (s : ConstState) :
    Rewrites s op (substituteAndFold op s) := by
  cases op with
  | intAdd dest lhs rhs => exact rewrites_foldBinop (fun _ _ => rfl) (.intAdd dest lhs rhs)
  | intSub dest lhs rhs => exact rewrites_foldBinop (fun _ _ => rfl) (.intSub dest lhs rhs)
  | intEqual dest lhs rhs => exact rewrites_foldBinop (fun _ _ => rfl) (.intEqual dest lhs rhs)
  | intNotEqual dest lhs rhs =>
    exact rewrites_foldBinop (fun _ _ => rfl) (.intNotEqual dest lhs rhs)
  | intSless dest lhs rhs => exact rewrites_foldBinop (fun _ _ => rfl) (.intSless dest lhs rhs)
  | intSlessEqual dest lhs rhs =>
    exact rewrites_foldBinop (fun _ _ => rfl) (.intSlessEqual dest lhs rhs)
  | _ => exact .kept nofun rfl

variable (hop : op.WellFormed) (hσ : σ.Bounded) {content : Location → UInt64 → UInt64}
  (hread : ∀ v ∈ op.operands, ∀ x, s.get v.location = .const x →
    σ.read v = (content v.location x).toNat)

theorem read_substitute_of_const {v : Varnode} {x : UInt64} (hx : s.get v.location = .const x) :
    σ.read (substitute v s) = x.toNat := by
  unfold substitute
  simp only [hx]
  split
  case isTrue => exact State.read_literal σ rfl
  case isFalse hspace =>
    have hspace : v.space = .constant := by simpa using hspace
    rw [ConstState.get_of_constant s hspace, ConstValue.const.injEq] at hx
    rw [State.read_literal σ hspace, ← hx]

include hread in
theorem read_substitute_eq_iff {v : Varnode} (hv : v ∈ op.operands) :
    σ.read v = σ.read (substitute v s) ↔
      ∀ x, s.get v.location = .const x → content v.location x = x := by
  constructor
  · intro h x hx
    rw [hread v hv x hx, read_substitute_of_const hx] at h
    exact UInt64.toNat_inj.mp h
  · intro h
    refine (read_substitute fun x hx => ?_).symm
    rw [hread v hv x hx, h x hx]

include hop hσ hread

theorem justified_folded_iff {dest lhs rhs : Varnode} {f : UInt64 → UInt64 → UInt64}
    {x y : UInt64} (hbin : Binop op dest lhs rhs f) (hx : s.get lhs.location = .const x)
    (hy : s.get rhs.location = .const y) :
    Justified callee σ op (.copy dest (.constant (f x y) dest.size)) ↔
      f (content lhs.location x) (content rhs.location y) = f x y := by
  have hops := hbin.operands_eq
  have hspace := hbin.dest_ne_constant hop
  have hexec : op.exec callee σ =
      some (σ.write dest (f (content lhs.location x) (content rhs.location y)).toNat) :=
    hbin.exec_eq hop hσ (hread lhs (by simp [hops]) x hx) (hread rhs (by simp [hops]) y hy)
  have hfolded : (Instruction.copy dest (.constant (f x y) dest.size)).exec callee σ =
      some (σ.write dest (f x y).toNat) :=
    congrArg (fun n => some (σ.write dest n)) (State.read_literal σ rfl)
  have hlen : (Instruction.copy dest (.constant (f x y) dest.size)).operands.length ≠
      op.operands.length := by
    rw [hops]
    exact Nat.ne_of_lt (Nat.lt_succ_self 1)
  constructor
  · intro h
    have hsame := Option.some.inj ((hexec.symm.trans (h.folded hlen).symm).trans hfolded)
    have hval := congrArg (fun τ : State => τ.read dest) hsame
    simp only [State.read_write_self σ hspace, Nat.mod_eq_of_lt (hbin.result_lt hop _ _)] at hval
    exact UInt64.toNat_inj.mp hval
  · intro h
    refine ⟨fun hl => absurd hl hlen, fun _ => ?_⟩
    rw [hexec, hfolded, h]

/-- A rewritten operation is justified exactly when the constants survive. -/
theorem justified_iff {rewritten : Instruction} (hrew : Rewrites s op rewritten) :
    Justified callee σ op rewritten ↔ Survives (fun l x => s.get l = .const x) content op := by
  cases hrew with
  | folded hbin hx hy =>
    rw [justified_folded_iff hop hσ hread hbin hx hy]
    constructor
    · intro h
      refine ⟨fun h' hx' hy' => ?_, fun hnone => absurd hy (hnone hbin hx)⟩
      obtain ⟨rfl, rfl, rfl, rfl⟩ := hbin.unique h'
      rw [hx] at hx'
      rw [hy] at hy'
      obtain rfl := ConstValue.const.inj hx'
      obtain rfl := ConstValue.const.inj hy'
      exact h
    · exact fun h => h.folded hbin hx hy
  | kept hne heq =>
    have hlen : rewritten.operands.length = op.operands.length := by
      rw [heq, List.length_map]
    have hzip : ∀ p, p ∈ op.operands.zip rewritten.operands ↔
        ∃ v ∈ op.operands, p = (v, substitute v s) := by
      intro p
      have hmap : op.operands.zip (op.operands.map (substitute · s)) =
          op.operands.map fun v => (v, substitute v s) := by
        rw [← List.map_prod_left_eq_zip]
      rw [heq, hmap]
      simp [eq_comm]
    constructor
    · intro h
      refine ⟨fun hbin hx hy => absurd hy (hne hbin hx), fun _ v hv => ?_⟩
      exact (read_substitute_eq_iff hread hv).mp
        (h.operands hlen _ ((hzip _).mpr ⟨v, hv, rfl⟩))
    · intro h
      refine ⟨fun _ p hp => ?_, fun hl => absurd hlen hl⟩
      obtain ⟨v, hv, rfl⟩ := (hzip p).mp hp
      exact (read_substitute_eq_iff hread hv).mpr (h.replaced hne v hv)

omit hread in
theorem Justified.right_dest {rewritten : Instruction} {σ' : State} {dest : Varnode}
    (h : Justified callee σ op rewritten) (hrew : Rewrites s op rewritten)
    (hexec : op.exec callee σ = some σ') (hdest : op.opDest = some dest) :
    Right (transferInstruction op s) σ' dest := by
  cases hrew with
  | @folded d lhs rhs f x y hbin hx hy =>
    obtain rfl : d = dest := Option.some.inj (hbin.opDest_eq.symm.trans hdest)
    have hlen : (Instruction.copy d (.constant (f x y) d.size)).operands.length ≠
        op.operands.length := by
      rw [hbin.operands_eq]
      exact Nat.ne_of_lt (Nat.lt_succ_self 1)
    have hcopy := (h.folded hlen).trans hexec
    rw [Instruction.exec, State.read_literal σ rfl] at hcopy
    obtain rfl := Option.some.inj hcopy
    intro z hz
    rw [hbin.get_dest hop, hx, hy] at hz
    obtain rfl := ConstValue.const.inj hz
    rw [State.read_write_self σ (hbin.dest_ne_constant hop)]
    exact Nat.mod_eq_of_lt (hbin.result_lt hop x y)
  | kept _ heq =>
    refine ConstProp.right_dest hop hσ (fun v hv x hx => ?_) hexec hdest
    have hmem : (v, substitute v s) ∈ op.operands.zip rewritten.operands := by
      rw [heq, ← List.map_prod_left_eq_zip]
      exact List.mem_map_of_mem hv
    exact (h.operands (by rw [heq, List.length_map]) _ hmem).trans (read_substitute_of_const hx)

end Operation

section Block

variable {effect : ℕ → X86.Reg32 → UInt32} {ops : List Instruction} {l : Location} {i : ℕ}

theorem lastLeft_call {target : BranchTarget} (h : ops[i]? = some (.call target)) :
    lastLeft effect ops l (i + 1) = (gpr l).map (effect i) := by
  rw [lastLeft, h]

theorem lastLeft_of_not_call {op : Instruction} (h : ops[i]? = some op)
    (hcall : op.isCall = false) : lastLeft effect ops l (i + 1) =
      if op.opDest.map Varnode.location = some l then none else lastLeft effect ops l i := by
  rw [lastLeft, h]
  cases op <;> first | rfl | cases hcall

theorem lastLeft_of_gpr_eq_none (h : gpr l = none) : lastLeft effect ops l i = none := by
  induction i with
  | zero => rfl
  | succ i ih =>
    rw [lastLeft, ih, h]
    split
    · rfl
    · split <;> rfl
    · rfl

structure Sees (effect : ℕ → X86.Reg32 → UInt32) (ops : List Instruction) (s : ConstState)
    (i : ℕ) (τ : State) : Prop where
  bounded : τ.Bounded
  cells : ∀ l : Location, l.space ≠ .constant → ∀ x, (after ops s i).get l = .const x →
    τ.cells l = (content effect ops i l x).toNat

variable {s : ConstState} {τ : State}

theorem Sees.read (h : Sees effect ops s i τ) (v : Varnode) {x : UInt64}
    (hx : (after ops s i).get v.location = .const x) :
    τ.read v = (content effect ops i v.location x).toNat := by
  by_cases hspace : v.space = .constant
  · rw [ConstState.get_of_constant _ hspace] at hx
    rw [State.read_literal τ hspace, content, lastLeft_of_gpr_eq_none (gpr_of_constant hspace)]
    exact congrArg UInt64.toNat (ConstValue.const.inj hx)
  · rw [State.read, if_neg hspace]
    exact h.cells v.location hspace x hx

theorem Sees.call (h : Sees effect ops s i τ) {target : BranchTarget}
    (hop : ops[i]? = some (.call target)) :
    Sees effect ops s (i + 1) (clobber (effect i) τ) := by
  refine ⟨bounded_clobber h.bounded _, fun l hspace x hx => ?_⟩
  rw [after_succ hop] at hx
  rw [content, lastLeft_call hop, cells_clobber]
  cases hr : gpr l with
  | none =>
    have hcell := h.cells l hspace x hx
    rwa [content, lastLeft_of_gpr_eq_none hr] at hcell
  | some r => rfl

theorem Sees.step (h : Sees effect ops s i τ) {op rewritten : Instruction}
    (hget : ops[i]? = some op) (hop : op.WellFormed) {τ' : State}
    (hexec : op.exec (fun _ => clobber (effect i)) τ = some τ')
    (hrew : Rewrites (after ops s i) op rewritten)
    (hj : Justified (fun _ => clobber (effect i)) τ op rewritten) :
    Sees effect ops s (i + 1) τ' := by
  by_cases hcall : op.isCall = false
  · refine ⟨h.bounded.exec (fun t ht => ?_) hexec, fun l hspace x hx => ?_⟩
    · rw [ht] at hcall
      cases hcall
    rw [after_succ hget] at hx
    rw [content, lastLeft_of_not_call hget hcall]
    rcases transferInstruction_eq op (after ops s i) with ⟨ht, hdest⟩ | ⟨dest, v, hdest, ht⟩
    · rw [ht] at hx
      have hcells := Instruction.cells_exec hdest (fun t ht => by rw [ht] at hcall; cases hcall)
        hexec
      rw [hdest, Option.map_none, if_neg nofun, hcells]
      exact h.cells l hspace x hx
    · rw [hdest, Option.map_some]
      by_cases hl : dest.location = l
      · subst hl
        have hread := hj.right_dest hop h.bounded hrew hexec hdest x hx
        rw [State.read, if_neg hspace] at hread
        rw [if_pos rfl]
        exact hread
      · obtain ⟨value, rfl⟩ := Instruction.exec_eq_write hdest hexec
        rw [ht, ConstState.get_set_of_ne _ v (Ne.symm hl)] at hx
        rw [if_neg fun he => hl (Option.some.inj he), State.cells_write_of_ne τ (Ne.symm hl)]
        exact h.cells l hspace x hx
  · cases op with
    | call target => exact Option.some.inj hexec ▸ h.call hget
    | _ => exact absurd rfl hcall

variable {σ : State} (hσ : σ.Bounded) (hwf : ∀ op ∈ ops, op.WellFormed)
  (hs : ∀ l : Location, l.space ≠ .constant → s.get l = .top)

include hσ hwf hs

theorem exists_stateAt_sees
    (hj : ∀ i op τ, ops[i]? = some op → stateAt effect ops σ i = some τ →
      Sees effect ops s i τ → Justified (fun _ => clobber (effect i)) τ op
        (substituteAndFold op (after ops s i))) :
    ∀ i ≤ ops.length, ∃ τ, stateAt effect ops σ i = some τ ∧ Sees effect ops s i τ := by
  intro i
  induction i with
  | zero =>
    refine fun _ => ⟨σ, rfl, hσ, fun l hspace x hx => ?_⟩
    rw [after_zero, hs l hspace] at hx
    cases hx
  | succ i ih =>
    intro hi
    obtain ⟨τ, hτ, hsees⟩ := ih (Nat.le_of_succ_le hi)
    have hget : ops[i]? = some ops[i] := List.getElem?_eq_getElem hi
    have hop := hwf _ (List.mem_of_getElem? hget)
    obtain ⟨τ', hexec⟩ :=
      hop.exists_exec (fun _ => clobber (effect i)) τ
    refine ⟨τ', ?_, hsees.step hget hop hexec (substituteAndFold_rewrites _ _)
      (hj i _ τ hget hτ hsees)⟩
    rw [stateAt, hτ, Option.bind_some, hget]
    exact hexec

/-- The rewriting of all operations is justified exactly when the constants survive
the calls. -/
theorem forall_justified_iff :
    (∀ i op, ops[i]? = some op → ∃ τ, stateAt effect ops σ i = some τ ∧
      Justified (fun _ => clobber (effect i)) τ op (substituteAndFold op (after ops s i))) ↔
    ∀ i op, ops[i]? = some op →
      Survives (fun l x => (after ops s i).get l = .const x) (content effect ops i) op := by
  have hiff : ∀ {i op τ}, ops[i]? = some op → Sees effect ops s i τ →
      (Justified (fun _ => clobber (effect i)) τ op (substituteAndFold op (after ops s i)) ↔
        Survives (fun l x => (after ops s i).get l = .const x) (content effect ops i) op) :=
    fun hget hsees => justified_iff (hwf _ (List.mem_of_getElem? hget)) hsees.bounded
      (fun v _ _ hx => hsees.read v hx) (substituteAndFold_rewrites _ _)
  constructor
  · intro h i op hget
    have hall : ∀ i ≤ ops.length, ∃ τ, stateAt effect ops σ i = some τ ∧
        Sees effect ops s i τ := by
      apply exists_stateAt_sees hσ hwf hs
      intro i op τ hget hτ _
      obtain ⟨τ', hτ', hj⟩ := h i op hget
      rwa [← Option.some.inj (hτ.symm.trans hτ')] at hj
    obtain ⟨τ, hτ, hj⟩ := h i op hget
    obtain ⟨τ', hτ', hsees⟩ := hall i (List.getElem?_eq_some_iff.mp hget).1.le
    rw [← Option.some.inj (hτ.symm.trans hτ')] at hsees
    exact (hiff hget hsees).mp hj
  · intro h i op hget
    have hall : ∀ i ≤ ops.length, ∃ τ, stateAt effect ops σ i = some τ ∧
        Sees effect ops s i τ := by
      apply exists_stateAt_sees hσ hwf hs
      exact fun i op τ hget _ hsees => (hiff hget hsees).mpr (h i op hget)
    obtain ⟨τ, hτ, hsees⟩ := hall i (List.getElem?_eq_some_iff.mp hget).1.le
    exact ⟨τ, hτ, (hiff hget hsees).mpr (h i op hget)⟩

end Block

/-- Every operand replaced in the block has its value in the run from a state, and
every folded operation computes its literal. -/
def SoundAcrossCalls (effect : ℕ → X86.Reg32 → UInt32) (σ : State) (b rewritten : BasicBlock) :
    Prop :=
  ∀ i op, b.ops[i]? = some op → ∃ τ op', stateAt effect b.ops σ i = some τ ∧
    rewritten.ops[i]? = some op' ∧ Justified (fun _ => clobber (effect i)) τ op op'

/-- The constants that the operations of the block carry survive its calls. -/
def ConstantsSurvive (effect : ℕ → X86.Reg32 → UInt32) (b : BasicBlock) : Prop :=
  ∀ i op, b.ops[i]? = some op →
    Survives (CarriesOnly [b] b.startAddress i) (content effect b.ops i) op

/-- In a straight-line function the pass is sound exactly when the constants survive. -/
theorem run_sound_iff_constantsSurvive {name : String} {bytes : List UInt8} {base : Address}
    {f : Function} (hf : Arch.x86.processFunction name bytes base = .ok f) :
    ∃ g, build f = .ok g ∧ ∃ h, run g = .ok h ∧
      ∀ b, g.blocks = [b] → b.successors = [] → ∃ b', h.blocks = [b'] ∧
        ∀ (effect : ℕ → X86.Reg32 → UInt32) (σ : State), σ.Bounded →
          (SoundAcrossCalls effect σ b b' ↔ ConstantsSurvive effect b) := by
  obtain ⟨flat, rfl, hflat⟩ := Arch.processFunction_eq_ok hf
  obtain ⟨g, hbuild, rfl, hg⟩ := @build_ofStream name base flat hflat.nodup
  obtain ⟨r, hsolved, hrun, hr⟩ := run_eq_ok hg.nodup_starts hg.edgesReversed
  refine ⟨g, hbuild, rewrite g r, hrun, fun b hb hsucc => ?_⟩
  refine ⟨rewriteBlock r b, by rw [rewrite_blocks, hb]; rfl, fun effect σ hσ => ?_⟩
  have hmem : b ∈ g.blocks := by simp [hb]
  have hwf : ∀ op ∈ b.ops, op.WellFormed := fun op hop => hg.wellFormed hflat hmem hop
  have hpred : b.predecessors = [] := by
    rw [List.eq_nil_iff_forall_not_mem]
    intro a ha
    obtain ⟨c, hc, -, hedge⟩ := (hg.edgesReversed b hmem a).mp ha
    rw [hb, List.mem_singleton] at hc
    rw [hc, hsucc] at hedge
    cases hedge
  have htop : ∀ l : Location, l.space ≠ .constant → (inOf b r.blockOut).get l = .top := by
    intro l hspace
    rw [inOf_eq_top hpred]
    exact ConstState.get_top hspace
  have hknown : ∀ i op, b.ops[i]? = some op →
      (fun l x => (after b.ops (inOf b r.blockOut) i).get l = .const x) =
        CarriesOnly [b] b.startAddress i := by
    intro i op hget
    ext l x
    rw [← hb]
    exact get_eq_const_iff (fun b hb op hop => hg.wellFormed hflat hb hop) hg.nodup_starts
      hg.edgesReversed hr hmem (List.getElem?_eq_some_iff.mp hget).1.le
  have hiff := @forall_justified_iff effect _ _ _ hσ hwf htop
  constructor
  · intro h i op hget
    rw [← hknown i op hget]
    refine hiff.mp (fun i op hget => ?_) i op hget
    obtain ⟨τ, op', hτ, hop', hj⟩ := h i op hget
    rw [getElem?_ops_rewriteBlock hsolved hmem, hget] at hop'
    obtain rfl := Option.some.inj hop'
    exact ⟨τ, hτ, hj⟩
  · intro h i op hget
    obtain ⟨τ, hτ, hj⟩ := hiff.mpr (fun i op hget => hknown i op hget ▸ h i op hget) i op hget
    exact ⟨τ, _, hτ, by rw [getElem?_ops_rewriteBlock hsolved hmem, hget]; rfl, hj⟩

/-- `call; mov eax, 5; mov ebx, eax; ret` -/
def constantBehind : List UInt8 :=
  [0xE8, 0x00, 0x00, 0x00, 0x00, 0xB8, 0x05, 0x00, 0x00, 0x00, 0x89, 0xC3, 0xC3]

/-- A constant that is assigned behind the call survives whatever the callee does. -/
theorem run_sound_iff_constantBehind :
    ∃ f, Arch.x86.processFunction "input" constantBehind 0x1000 = .ok f ∧
      ∃ g, build f = .ok g ∧ ∃ h, run g = .ok h ∧ ∃ b b', g.blocks = [b] ∧ h.blocks = [b'] ∧
        b'.ops[2]? = some (.copy (X86.regVarnode .ebx) (.constant 5 4)) ∧
        ∀ (effect : ℕ → X86.Reg32 → UInt32) (σ : State), σ.Bounded →
          SoundAcrossCalls effect σ b b' := by
  have hrun : ∃ f, Arch.x86.processFunction "input" constantBehind 0x1000 = .ok f ∧
      ∃ g, build f = .ok g ∧ ∃ h, run g = .ok h ∧
        g.blocks.map BasicBlock.successors = [[]] ∧
        (∀ b ∈ g.blocks, b.ops = [.call (.absolute 0x1005),
          .copy (X86.regVarnode .eax) (.constant 5 4),
          .copy (X86.regVarnode .ebx) (X86.regVarnode .eax), .ret]) ∧
        h.blocks.map (fun b => b.ops[2]?) =
          [some (.copy (X86.regVarnode .ebx) (.constant 5 4))] := by decide +kernel
  obtain ⟨f, hf, g, hg, h, hh, hblocks, hall, hop⟩ := hrun
  obtain ⟨b, hb, hsucc⟩ := List.map_eq_singleton_iff.mp hblocks
  have hops := hall b (by simp [hb])
  obtain ⟨g', hg', h', hh', hsound⟩ := run_sound_iff_constantsSurvive hf
  obtain rfl := Except.ok.inj (hg.symm.trans hg')
  obtain rfl := Except.ok.inj (hh.symm.trans hh')
  obtain ⟨b', hb', hiff⟩ := hsound b hb hsucc
  have hop' : b'.ops[2]? = some (.copy (X86.regVarnode .ebx) (.constant 5 4)) := by
    simpa [hb'] using hop
  refine ⟨f, hf, g, hg, h, hh, b, b', hb, hb', hop', fun effect σ hσ => (hiff effect σ hσ).mpr ?_⟩
  intro i op hget
  rw [hops] at hget ⊢
  match i with
  | 0 | 3 =>
    obtain rfl := Option.some.inj hget
    exact ⟨nofun, fun _ v hv => nomatch hv⟩
  | 1 | 2 =>
    obtain rfl := Option.some.inj hget
    refine ⟨nofun, fun _ v hv x _ => ?_⟩
    obtain rfl := List.mem_singleton.mp hv
    rfl
  | i + 4 => cases hget

/-- `mov eax, 5; call; mov ebx, eax; ret` -/
def callResult : List UInt8 :=
  [0xB8, 0x05, 0x00, 0x00, 0x00, 0xE8, 0x00, 0x00, 0x00, 0x00, 0x89, 0xC3, 0xC3]

/-- A callee that returns `7` in `eax` does not leave the `5` that its read is replaced by. -/
theorem run_not_sound_callResult :
    ∃ f, Arch.x86.processFunction "input" callResult 0x1000 = .ok f ∧
      ∃ g, build f = .ok g ∧ ∃ h, run g = .ok h ∧ ∃ b b', g.blocks = [b] ∧ b.successors = [] ∧
        h.blocks = [b'] ∧ ∃ (effect : ℕ → X86.Reg32 → UInt32) (σ : State), σ.Bounded ∧
          ¬ SoundAcrossCalls effect σ b b' := by
  have hrun : ∃ f, Arch.x86.processFunction "input" callResult 0x1000 = .ok f ∧
      ∃ g, build f = .ok g ∧ ∃ h, run g = .ok h ∧
        g.blocks.map BasicBlock.successors = [[]] ∧
        (∀ b ∈ g.blocks, b.ops[2]? = some (.copy (X86.regVarnode .ebx) (X86.regVarnode .eax)) ∧
          (stateAt (fun _ _ => 7) b.ops .zero 2).map (·.read (X86.regVarnode .eax)) = some 7) ∧
        h.blocks.map (fun b => b.ops[2]?) =
          [some (.copy (X86.regVarnode .ebx) (.constant 5 4))] := by decide +kernel
  obtain ⟨f, hf, g, hg, h, hh, hblocks, hops, hblocks'⟩ := hrun
  obtain ⟨b, hb, hsucc⟩ := List.map_eq_singleton_iff.mp hblocks
  obtain ⟨b', hb', hop'⟩ := List.map_eq_singleton_iff.mp hblocks'
  obtain ⟨hop, hread⟩ := hops b (by simp [hb])
  refine ⟨f, hf, g, hg, h, hh, b, b', hb, hsucc, hb', fun _ _ => 7, .zero, State.bounded_zero,
    fun hsound => ?_⟩
  obtain ⟨τ, op', hτ, hget, hj⟩ := hsound 2 _ hop
  obtain rfl := Option.some.inj (hop'.symm.trans hget)
  have heq := hj.operands rfl (X86.regVarnode .eax, .constant 5 4) (by decide)
  rw [hτ, Option.map_some, Option.some.injEq] at hread
  rw [hread, State.read_literal τ rfl] at heq
  cases heq

end Decompiler.ConstProp
