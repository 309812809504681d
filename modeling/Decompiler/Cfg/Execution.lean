import Mathlib.Computability.StateTransition
import Decompiler.Cfg.Lifted

/-! # Executing an instruction in its graph

The graph machine executes operations one by one. Executing all operations of an instruction
takes it from the place before that instruction to the one before the instruction at which
control goes on, within the block or in the next one.
-/

namespace Decompiler.Cfg

variable {callee : BranchTarget → State → State} {bs : List BasicBlock}

theorem run_add (c : Config) (n m : ℕ) :
    run callee bs c (n + m) = (run callee bs c n).bind fun d => run callee bs d m := by
  induction m with
  | zero => simp [run]
  | succ m ih =>
    rw [← Nat.add_assoc, run, ih, Option.bind_assoc]
    rfl

def RunsTo (callee : BranchTarget → State → State) (bs : List BasicBlock) (c d : Config) : Prop :=
  ∃ n, run callee bs c n = some d

namespace RunsTo

variable {c d e : Config}

theorem refl (c : Config) : RunsTo callee bs c c := ⟨0, rfl⟩

theorem single (h : step callee bs c = some d) : RunsTo callee bs c d := ⟨1, h⟩

theorem trans (h : RunsTo callee bs c d) (h' : RunsTo callee bs d e) : RunsTo callee bs c e := by
  obtain ⟨n, hn⟩ := h
  obtain ⟨m, hm⟩ := h'
  refine ⟨n + m, ?_⟩
  rw [run_add, hn]
  exact hm

theorem reaches (h : RunsTo callee bs c d) : StateTransition.Reaches (step callee bs) c d := by
  obtain ⟨n, hn⟩ := h
  induction n generalizing d with
  | zero =>
    obtain rfl := Option.some.inj hn
    exact .refl
  | succ n ih =>
    obtain ⟨e, he, hstep⟩ := Option.bind_eq_some_iff.mp hn
    exact (ih he).tail hstep

theorem reaches₁ (h : RunsTo callee bs c d) (hstep : step callee bs d = some e) :
    StateTransition.Reaches₁ (step callee bs) c e := .tail' h.reaches hstep

end RunsTo

def behind (b : BasicBlock) (pre : List LiftedInstruction) (σ : State) : Config :=
  ⟨b.startAddress, (pre.flatMap LiftedInstruction.ops).length, σ⟩

structure Before (bs : List BasicBlock) (li : LiftedInstruction) (c : Config) : Prop where
  exists_split : ∃ b ∈ bs, ∃ pre post, b.instructions = pre ++ li :: post ∧
    c = behind b pre c.state

theorem exists_transfer {ops : List Instruction} {σ σ' : State} {control : Control}
    (h : execOps callee ops σ = some (σ', control)) (hne : control ≠ .fall) :
    ∃ before op rest, ops = before ++ op :: rest ∧
      execOps callee before σ = some (σ', .fall) ∧ op.control σ' = control := by
  induction ops generalizing σ with
  | nil => exact absurd (Prod.mk.inj (Option.some.inj h)).2.symm hne
  | cons op ops ih =>
    rw [execOps] at h
    cases hcontrol : op.control σ with
    | fall =>
      rw [hcontrol] at h
      obtain ⟨σ₁, hop, h⟩ := Option.bind_eq_some_iff.mp h
      obtain ⟨before, op', rest, rfl, hbefore, hop'⟩ := ih h
      refine ⟨op :: before, op', rest, rfl, ?_, hop'⟩
      rw [execOps, hcontrol, hop]
      exact hbefore
    | jump target =>
      rw [hcontrol] at h
      obtain ⟨rfl, rfl⟩ := Prod.mk.inj (Option.some.inj h)
      exact ⟨[], op, ops, rfl, rfl, hcontrol⟩
    | stop =>
      rw [hcontrol] at h
      obtain ⟨rfl, rfl⟩ := Prod.mk.inj (Option.some.inj h)
      exact ⟨[], op, ops, rfl, rfl, hcontrol⟩

theorem targets_of_jump {li : LiftedInstruction} {σ σ' : State} {target : Address}
    (h : execOps callee li.ops σ = some (σ', .jump (.absolute target))) : li.Targets target := by
  obtain ⟨before, op, rest, hops, -, hcontrol⟩ := exists_transfer h nofun
  refine ⟨op, ?_, (Instruction.of_control_jump hcontrol).2⟩
  simp [hops]

section Step

variable {c : Config} {op : Instruction} (hop : opAt bs c = some op)

include hop

theorem step_of_fall (h : op.control c.state = .fall) :
    step callee bs c = (op.exec callee c.state).map fun σ => ⟨c.block, c.done + 1, σ⟩ := by
  obtain ⟨b, hb, hget⟩ := Option.bind_eq_some_iff.mp hop
  simp only [step, hb, Option.bind_some, hget, h]

theorem step_of_jump {target : BranchTarget} (h : op.control c.state = .jump target) :
    step callee bs c = enter bs target.address? c.state := by
  obtain ⟨b, hb, hget⟩ := Option.bind_eq_some_iff.mp hop
  simp only [step, hb, Option.bind_some, hget, h]

theorem step_of_stop (h : op.control c.state = .stop) : step callee bs c = none := by
  obtain ⟨b, hb, hget⟩ := Option.bind_eq_some_iff.mp hop
  simp only [step, hb, Option.bind_some, hget, h]

end Step

section Ops

variable {b : BasicBlock} (hb : blockStarting bs b.startAddress = some b) {σ σ' : State}
  {before ops rest : List Instruction}

include hb

theorem opAt_of_split {op : Instruction} (hops : b.ops = before ++ op :: rest) :
    opAt bs ⟨b.startAddress, before.length, σ⟩ = some op := by
  simp [opAt, hb, hops]

theorem runsTo_of_fall (hops : b.ops = before ++ ops ++ rest)
    (hexec : execOps callee ops σ = some (σ', .fall)) :
    RunsTo callee bs ⟨b.startAddress, before.length, σ⟩
      ⟨b.startAddress, (before ++ ops).length, σ'⟩ := by
  induction ops generalizing before σ with
  | nil =>
    obtain ⟨rfl, -⟩ := Prod.mk.inj (Option.some.inj hexec)
    rw [List.append_nil]
    exact .refl _
  | cons op ops ih =>
    have hat : opAt bs ⟨b.startAddress, before.length, σ⟩ = some op := by
      have hsplit : b.ops = before ++ op :: (ops ++ rest) := by simpa using hops
      exact opAt_of_split hb hsplit
    rw [execOps] at hexec
    cases hcontrol : op.control σ with
    | fall =>
      rw [hcontrol] at hexec
      obtain ⟨σ₁, hop, hexec⟩ := Option.bind_eq_some_iff.mp hexec
      have hstep := @step_of_fall callee _ _ _ hat hcontrol
      rw [hop] at hstep
      have hsplit : b.ops = (before ++ [op]) ++ ops ++ rest := by simpa using hops
      have hrest := ih hsplit hexec
      rw [List.length_append, List.length_singleton, List.append_assoc] at hrest
      exact (RunsTo.single hstep).trans hrest
    | jump target =>
      rw [hcontrol] at hexec
      cases hexec
    | stop =>
      rw [hcontrol] at hexec
      cases hexec

end Ops

section Instructions

variable {flat : List LiftedInstruction} {entry : Address} (h : IsCfg flat entry bs)
  (hnd : (flat.map LiftedInstruction.address).Nodup) {li : LiftedInstruction} {c : Config}
  {σ' : State}

include h hnd

theorem IsCfg.blockStarting_of_mem {b : BasicBlock} (hb : b ∈ bs) :
    blockStarting bs b.startAddress = some b :=
  (blockStarting_eq_some (h.nodup_starts hnd)).mpr ⟨hb, rfl⟩

theorem IsCfg.block_unique {b d : BasicBlock} (hb : b ∈ bs) (hd : d ∈ bs)
    (hli : li ∈ b.instructions) (hli' : li ∈ d.instructions) : b = d := by
  have hnodup : (bs.flatMap BasicBlock.instructions).Nodup := by
    rw [h.split.flatten]
    exact hnd.of_map
  have hsymm : Std.Symm (Function.onFun List.Disjoint BasicBlock.instructions) :=
    ⟨fun _ _ hdisj => hdisj.symm⟩
  by_contra hne
  exact (List.nodup_flatMap.mp hnodup).2.forall hb hd hne hli hli'

theorem IsCfg.runsTo_next {next : LiftedInstruction} (hc : Before bs li c)
    (hexec : execOps callee li.ops c.state = some (σ', .fall)) (hnext : Follows flat li next) :
    ∃ d, RunsTo callee bs c d ∧ (li.ops ≠ [] → StateTransition.Reaches₁ (step callee bs) c d) ∧
      Before bs next d ∧ d.state = σ' := by
  obtain ⟨b, hb, pre, post, hsplit, hplace⟩ := hc.exists_split
  have hops : b.ops = pre.flatMap LiftedInstruction.ops ++ li.ops ++
      post.flatMap LiftedInstruction.ops := by
    rw [BasicBlock.ops, hsplit]
    simp
  have hrun := runsTo_of_fall (h.blockStarting_of_mem hnd hb) hops hexec
  rw [hplace]
  have hli : li ∈ b.instructions := by simp [hsplit]
  cases post with
  | cons x post =>
    have hx : Follows flat li x := by
      refine h.split.follows_of_mem hb ?_
      rw [Follows, hsplit]
      exact ⟨pre, post, by simp⟩
    obtain rfl := hnext.right_unique hnd.of_map hx
    have hrun : RunsTo callee bs (behind b pre c.state) (behind b (pre ++ [li]) σ') := by
      simpa [behind] using hrun
    refine ⟨behind b (pre ++ [li]) σ', hrun, fun hne => ?_,
      ⟨b, hb, pre ++ [li], post, by simp [hsplit], rfl⟩, rfl⟩
    refine (Relation.reflTransGen_iff_eq_or_transGen.mp hrun.reaches).resolve_left fun heq => ?_
    have hdone := congrArg Config.done heq
    simp [behind, hne] at hdone
  | nil =>
    -- the instruction ends its block, and the next one heads the block behind it
    rw [← h.split.flatten, follows_flatMap_iff fun _ => h.split.instructions_ne_nil] at hnext
    have hlast : b.lastInstruction = some li := by simp [BasicBlock.lastInstruction, hsplit]
    rcases hnext with ⟨b', hb', hnext⟩ | ⟨b', d, hbd, hlast', hhead⟩
    · obtain rfl := h.block_unique hnd hb hb' hli hnext.mem_left
      have hnodup : b.instructions.Nodup := by
        have hflat := hnd.of_map
        rw [← h.split.flatten, List.nodup_flatMap] at hflat
        exact hflat.1 b hb
      exact absurd hlast (hnext.getLast?_ne hnodup)
    · obtain rfl := h.block_unique hnd hb hbd.mem_left hli (List.mem_of_getLast? hlast')
      obtain ⟨post, hpost⟩ := List.head?_eq_some_iff.mp hhead
      have hend : b.ops.length = (pre.flatMap LiftedInstruction.ops ++ li.ops).length := by
        rw [hops]
        simp
      have hstep : step callee bs ⟨b.startAddress, b.ops.length, σ'⟩ = some (behind d [] σ') := by
        rw [step, h.blockStarting_of_mem hnd hb, Option.bind_some,
          List.getElem?_eq_none (Nat.le_refl _)]
        have hafter := (nextAfter_eq_some (h.nodup_starts hnd) hb).mpr ⟨d, hbd, rfl⟩
        exact (enter_eq_some (h.nodup_starts hnd)).mpr
          ⟨d, hbd.mem_right, hafter, rfl⟩
      rw [← hend] at hrun
      exact ⟨behind d [] σ', hrun.trans (.single hstep), fun _ => hrun.reaches₁ hstep,
        ⟨d, hbd.mem_right, [], post, hpost, rfl⟩, rfl⟩

theorem IsCfg.runsTo_end (hc : Before bs li c)
    (hexec : execOps callee li.ops c.state = some (σ', .fall))
    (hlast : ∀ next, ¬ Follows flat li next) :
    ∃ d, RunsTo callee bs c d ∧ d.state = σ' ∧ opAt bs d = none ∧ nextAfter bs d.block = none := by
  obtain ⟨b, hb, pre, post, hsplit, hplace⟩ := hc.exists_split
  cases post with
  | cons x post =>
    refine absurd (h.split.follows_of_mem hb ?_) (hlast x)
    rw [Follows, hsplit]
    exact ⟨pre, post, by simp⟩
  | nil =>
    have hops : b.ops = pre.flatMap LiftedInstruction.ops ++ li.ops ++ [] := by
      rw [BasicBlock.ops, hsplit]
      simp
    have hfound := h.blockStarting_of_mem hnd hb
    have hrun := runsTo_of_fall hfound hops hexec
    rw [hplace]
    refine ⟨_, hrun, rfl, ?_, ?_⟩
    · rw [opAt, hfound, Option.bind_some, hops, List.append_nil, List.getElem?_length]
    · cases hnext : nextAfter bs b.startAddress with
      | none => rfl
      | some a =>
        obtain ⟨d, hbd, -⟩ := (nextAfter_eq_some (h.nodup_starts hnd) hb).mp hnext
        obtain ⟨first, hfirst⟩ : ∃ first, d.instructions.head? = some first :=
          ⟨_, List.head?_eq_some_head (h.split.instructions_ne_nil hbd.mem_right)⟩
        refine absurd ?_ (hlast first)
        rw [← h.split.flatten, follows_flatMap_iff fun _ => h.split.instructions_ne_nil]
        exact .inr ⟨b, d, hbd, by simp [hsplit], hfirst⟩

theorem IsCfg.runsTo_transfer {control : Control} (hc : Before bs li c)
    (hexec : execOps callee li.ops c.state = some (σ', control)) (hne : control ≠ .fall) :
    ∃ d op, RunsTo callee bs c d ∧ d.state = σ' ∧ opAt bs d = some op ∧
      op.control σ' = control := by
  obtain ⟨b, hb, pre, post, hsplit, hplace⟩ := hc.exists_split
  obtain ⟨before, op, rest, hops, hbefore, hcontrol⟩ := exists_transfer hexec hne
  have hfound := h.blockStarting_of_mem hnd hb
  have hblock : b.ops = pre.flatMap LiftedInstruction.ops ++ before ++
      op :: (rest ++ post.flatMap LiftedInstruction.ops) := by
    rw [BasicBlock.ops, hsplit]
    simp [hops]
  rw [hplace]
  exact ⟨_, op, runsTo_of_fall hfound hblock hbefore, rfl, opAt_of_split hfound hblock, hcontrol⟩

theorem IsCfg.runsTo_target {target : LiftedInstruction} (hc : Before bs li c)
    (hexec : execOps callee li.ops c.state = some (σ', .jump (.absolute target.address)))
    (htarget : target ∈ flat) :
    ∃ d, RunsTo callee bs c d ∧ StateTransition.Reaches₁ (step callee bs) c d ∧
      Before bs target d ∧ d.state = σ' := by
  obtain ⟨b, hb, pre, post, hsplit, -⟩ := hc.exists_split
  have hli : li ∈ flat := h.mem_flat hb (by simp [hsplit])
  have hleader : IsLeader flat entry target.address :=
    Or.inr (Or.inl ⟨li, hli, targets_of_jump hexec⟩)
  obtain ⟨d, hd, hin⟩ := h.split.mem_flat_iff.mp htarget
  obtain ⟨hhead, hstart⟩ := h.split.eq_head_of_leader hd hin hleader
  obtain ⟨rest, hrest⟩ := List.head?_eq_some_iff.mp hhead
  obtain ⟨e, op, hruns, rfl, hat, hcontrol⟩ := h.runsTo_transfer hnd hc hexec nofun
  have hstep := @step_of_jump callee _ _ _ hat _ hcontrol
  have henter : enter bs (some target.address) e.state = some (behind d [] e.state) :=
    (enter_eq_some (h.nodup_starts hnd)).mpr ⟨d, hd, congrArg some hstart.symm, rfl⟩
  exact ⟨behind d [] e.state, hruns.trans (.single (hstep.trans henter)),
    hruns.reaches₁ (hstep.trans henter), ⟨d, hd, [], rest, hrest, rfl⟩, rfl⟩

end Instructions

/-- One instruction of a stream on a state. -/
inductive StreamExec (callee : BranchTarget → State → State) (flat : List LiftedInstruction) :
    LiftedInstruction × State → LiftedInstruction × State → Prop
  | next {li next : LiftedInstruction} {σ σ' : State} (follows : Follows flat li next)
    (exec : execOps callee li.ops σ = some (σ', .fall)) :
    StreamExec callee flat (li, σ) (next, σ')
  | taken {li target : LiftedInstruction} {σ σ' : State} (target_mem : target ∈ flat)
    (exec : execOps callee li.ops σ = some (σ', .jump (.absolute target.address))) :
    StreamExec callee flat (li, σ) (target, σ')

section Stream

variable {flat : List LiftedInstruction} {entry : Address} (h : IsCfg flat entry bs)
  (hnd : (flat.map LiftedInstruction.address).Nodup) {x y : LiftedInstruction × State} {c : Config}
  (hc : Before bs x.1 c) (hσ : c.state = x.2)

include h hnd hc hσ

theorem IsCfg.exists_of_streamExec (hstep : StreamExec callee flat x y) :
    ∃ d, RunsTo callee bs c d ∧ (x.1.ops ≠ [] → StateTransition.Reaches₁ (step callee bs) c d) ∧
      Before bs y.1 d ∧ d.state = y.2 := by
  cases hstep with
  | next follows exec => exact h.runsTo_next hnd hc (hσ ▸ exec) follows
  | taken target_mem exec =>
    obtain ⟨d, hruns, hreaches, hd⟩ := h.runsTo_target hnd hc (by rw [hσ]; exact exec) target_mem
    exact ⟨d, hruns, fun _ => hreaches, hd⟩

/-- Executing the instructions of a stream takes the machine from one to the other. -/
theorem IsCfg.runsTo_of_streamExec (hruns : Relation.ReflTransGen (StreamExec callee flat) x y) :
    ∃ d, RunsTo callee bs c d ∧ Before bs y.1 d ∧ d.state = y.2 := by
  induction hruns with
  | refl => exact ⟨c, .refl c, hc, hσ⟩
  | tail _ hstep ih =>
    obtain ⟨d, hcd, hd, hσ'⟩ := ih
    obtain ⟨e, hde, -, he, hσ''⟩ := h.exists_of_streamExec hnd hd hσ' hstep
    exact ⟨e, hcd.trans hde, he, hσ''⟩

end Stream

end Decompiler.Cfg
