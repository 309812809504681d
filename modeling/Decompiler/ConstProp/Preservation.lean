import Decompiler.Cfg.Lifted
import Decompiler.ConstProp.Carried

/-! # When the pass preserves a run

The analysis starts every block without a predecessor, and every location that no
operation assigned, from `top`. What the caller left in a register is therefore
missing from the merged facts, and a read of it can be replaced by a constant that
another path carries. A run in which no read is misled in this way is preserved.
-/

namespace Decompiler.ConstProp

open Cfg Dataflow

section Rewriting

theorem rewriteOps_append (xs ys : List Instruction) (s : ConstState) :
    rewriteOps (xs ++ ys) s =
      rewriteOps xs s ++ rewriteOps ys (xs.foldl (fun s op => transferInstruction op s) s) := by
  induction xs generalizing s with
  | nil => rfl
  | cons op xs ih => rw [List.cons_append, rewriteOps, ih, rewriteOps, List.foldl_cons,
      List.cons_append]

theorem flatMap_rewriteInstructions (lis : List LiftedInstruction) (s : ConstState) :
    (rewriteInstructions lis s).flatMap LiftedInstruction.ops =
      rewriteOps (lis.flatMap LiftedInstruction.ops) s := by
  induction lis generalizing s with
  | nil => rfl
  | cons li lis ih => rw [rewriteInstructions, List.flatMap_cons, ih, List.flatMap_cons,
      rewriteOps_append]

theorem getElem?_rewriteOps (ops : List Instruction) (s : ConstState) (i : ℕ) :
    (rewriteOps ops s)[i]? = ops[i]?.map fun op => substituteAndFold op (after ops s i) := by
  induction ops generalizing s i with
  | nil => rfl
  | cons op ops ih =>
    cases i with
    | zero => rfl
    | succ i =>
      rw [rewriteOps, List.getElem?_cons_succ, ih, List.getElem?_cons_succ, after, after,
        List.take_succ_cons, List.foldl_cons]

def rewriteBlock (r : DataflowResult ConstState) (block : BasicBlock) : BasicBlock :=
  let state := (r.blockIn block.startAddress).getD Dataflow.Lattice.top
  { block with instructions := rewriteInstructions block.instructions state }

theorem rewrite_blocks (f : Function) (r : DataflowResult ConstState) :
    (rewrite f r).blocks = f.blocks.map (rewriteBlock r) := rfl

variable {f : Function} {r : DataflowResult ConstState}

theorem getElem?_ops_rewriteBlock (hr : Solved f constantPropagation r) {b : BasicBlock}
    (hb : b ∈ f.blocks) (i : ℕ) :
    (rewriteBlock r b).ops[i]? =
      b.ops[i]?.map fun op => substituteAndFold op (after b.ops (inOf b r.blockOut) i) := by
  rw [BasicBlock.ops, rewriteBlock, flatMap_rewriteInstructions, getElem?_rewriteOps, (hr b hb).1]
  rfl

theorem blockStarting_map (r : DataflowResult ConstState) (bs : List BasicBlock) (a : Address) :
    blockStarting (bs.map (rewriteBlock r)) a = (blockStarting bs a).map (rewriteBlock r) := by
  rw [blockStarting, List.find?_map]
  rfl

theorem nextAfter_map (r : DataflowResult ConstState) (bs : List BasicBlock) (a : Address) :
    nextAfter (bs.map (rewriteBlock r)) a = nextAfter bs a := by
  have hstart : ∀ i, startAt (bs.map (rewriteBlock r)) i = startAt bs i := by
    intro i
    rw [startAt, startAt, List.getElem?_map, Option.map_map]
    rfl
  rw [nextAfter, nextAfter, List.findIdx?_map]
  simp only [hstart]
  rfl

theorem enter_map (r : DataflowResult ConstState) (bs : List BasicBlock) (target : Option Address)
    (σ : State) : enter (bs.map (rewriteBlock r)) target σ = enter bs target σ := by
  cases target with
  | none => rfl
  | some a =>
    rw [enter, Option.bind_some, blockStarting_map, Option.map_map]
    rfl

/-- Where the analysis is right about the operands of the next operation, the
rewritten function takes the same step. -/
theorem step_rewrite (hnd : (f.blocks.map BasicBlock.startAddress).Nodup)
    (hr : Solved f constantPropagation r) {callee : BranchTarget → State → State} {c : Config}
    {b : BasicBlock} (hc : c.In f.blocks b) (hσ : c.state.Bounded)
    (hop : ∀ op, b.ops[c.done]? = some op → op.WellFormed ∧
      ∀ v ∈ op.operands, Right (after b.ops (inOf b r.blockOut) c.done) c.state v) :
    step callee (rewrite f r).blocks c = step callee f.blocks c := by
  rw [rewrite_blocks, step, step, blockStarting_map,
    (blockStarting_eq_some hnd).mpr ⟨hc.mem, hc.start⟩, Option.map_some, Option.bind_some,
    Option.bind_some, getElem?_ops_rewriteBlock hr hc.mem, nextAfter_map]
  cases hget : b.ops[c.done]? with
  | none => exact enter_map _ _ _ _
  | some op =>
    obtain ⟨hwf, hright⟩ := hop op hget
    simp only [Option.map_some, control_substituteAndFold hright,
      exec_substituteAndFold hwf hσ hright, enter_map]

end Rewriting

section Settled

/-- A load settles its destination, and so does an operation on literals and settled
locations alone. -/
def settles (settled : Finset Location) : Instruction → Bool
  | .load _ _ => true
  | op => op.operands.all fun v => v.space = .constant || v.location ∈ settled

def settledBy (op : Instruction) (settled : Finset Location) : Finset Location :=
  match op.opDest with
  | some dest =>
    if settles settled op then insert dest.location settled else settled.erase dest.location
  | none => settled

/-- The settled locations after a number of steps of a run. -/
def settledAfter (callee : BranchTarget → State → State) (bs : List BasicBlock) (c : Config) :
    ℕ → Finset Location
  | 0 => ∅
  | n + 1 =>
    match (Cfg.run callee bs c n).bind (opAt bs) with
    | some op => settledBy op (settledAfter callee bs c n)
    | none => settledAfter callee bs c n

/-- The next operation reads a location that is not settled and does not hold the one
constant that the paths carry to the point. -/
def Misled (bs : List BasicBlock) (settled : Finset Location) (c : Config) : Prop :=
  ∃ op, opAt bs c = some op ∧ ∃ v ∈ op.operands, v.space ≠ .constant ∧ v.location ∉ settled ∧
    ∃ x, CarriesOnly bs c.block c.done v.location x ∧ c.state.read v ≠ x.toNat

structure Knows (s : ConstState) (σ : State) (l : Location) : Prop where
  space : l.space ≠ .constant
  ne_top : s.get l ≠ .top
  right : ∀ x, s.get l = .const x → σ.cells l = x.toNat

variable {s : ConstState} {σ σ' : State} {settled : Finset Location}

theorem Knows.read {v : Varnode} (h : Knows s σ v.location) : Right s σ v := by
  intro x hx
  rw [State.read, if_neg h.space]
  exact h.right x hx

theorem evalBinop_ne_top {a b : ConstValue} {f : UInt64 → UInt64 → UInt64} (ha : a ≠ .top)
    (hb : b ≠ .top) : evalBinop a b f ≠ .top := by
  cases a <;> cases b <;> simp_all [evalBinop]

theorem mem_settledBy {op : Instruction} {dest : Varnode} (hdest : op.opDest = some dest)
    {l : Location} : l ∈ settledBy op settled ↔
      (l = dest.location ∧ settles settled op) ∨ (l ≠ dest.location ∧ l ∈ settled) := by
  rw [settledBy, hdest]
  dsimp only
  split
  case isTrue h =>
    rw [Finset.mem_insert]
    tauto
  case isFalse h =>
    rw [Finset.mem_erase]
    tauto

theorem settles_iff {op : Instruction} {dest : Varnode} (hdest : op.opDest = some dest)
    (hload : ∀ addr, op ≠ .load dest addr) : settles settled op ↔
      ∀ v ∈ op.operands, v.space = .constant ∨ v.location ∈ settled := by
  have hall : settles settled op =
      op.operands.all fun v => v.space = .constant || v.location ∈ settled := by
    cases op with
    | load d addr =>
      obtain rfl := Option.some.inj hdest
      exact absurd rfl (hload addr)
    | _ => rfl
  simp [hall]

section Step

variable {op : Instruction} (hop : op.WellFormed) (hs : ∀ l ∈ settled, Knows s σ l)

include hs

theorem get_ne_top_of_settled {v : Varnode} (hv : v.space = .constant ∨ v.location ∈ settled) :
    s.get v.location ≠ .top := by
  rcases hv with hv | hv
  · rw [ConstState.get_of_constant s hv]
    exact nofun
  · exact (hs _ hv).ne_top

include hop

theorem get_dest_ne_top {dest : Varnode} (hdest : op.opDest = some dest)
    (hsettles : settles settled op) : (transferInstruction op s).get dest.location ≠ .top := by
  rcases opDest_cases hdest with ⟨src, rfl⟩ | ⟨addr, rfl⟩ | ⟨srcs, rfl⟩ | ⟨lhs, rhs, f, hbin⟩
  · have hsrc := (settles_iff hdest fun _ h => by cases h).mp hsettles src
      (by simp [Instruction.operands])
    have hget : (transferInstruction (.copy dest src) s).get dest.location =
        s.get src.location := ConstState.get_set_self s hop.1 _
    rw [hget]
    exact get_ne_top_of_settled hs hsrc
  · have hget : (transferInstruction (.load dest addr) s).get dest.location = .notConstant :=
      ConstState.get_set_self s hop.1 _
    rw [hget]
    intro h
    cases h
  · exact absurd hop id
  · have hall := (settles_iff hdest fun addr h => by subst h; cases hbin).mp hsettles
    rw [hbin.operands_eq] at hall
    rw [hbin.get_dest hop]
    exact evalBinop_ne_top (get_ne_top_of_settled hs (hall lhs (by simp)))
      (get_ne_top_of_settled hs (hall rhs (by simp)))

theorem Knows.settledBy (hcall : ∀ target, op ≠ .call target) (hσ : σ.Bounded)
    (hright : ∀ v ∈ op.operands, Right s σ v) {callee : BranchTarget → State → State}
    (hexec : op.exec callee σ = some σ') :
    ∀ l ∈ settledBy op settled, Knows (transferInstruction op s) σ' l := by
  intro l hl
  rcases transferInstruction_eq op s with ⟨htransfer, hdest⟩ | ⟨dest, v, hdest, htransfer⟩
  · rw [ConstProp.settledBy, hdest] at hl
    rw [htransfer]
    obtain ⟨hspace, htop, hr⟩ := hs l hl
    have hcells := congrFun (Instruction.cells_exec hdest hcall hexec) l
    exact ⟨hspace, htop, fun x hx => hcells.trans (hr x hx)⟩
  · rcases (mem_settledBy hdest).mp hl with ⟨rfl, hsettles⟩ | ⟨hne, hmem⟩
    · have hspace := hop.dest_ne_constant hdest
      refine ⟨hspace, get_dest_ne_top hop hs hdest hsettles, fun x hx => ?_⟩
      have hread := right_dest hop hσ hright hexec hdest x hx
      rwa [State.read, if_neg hspace] at hread
    · obtain ⟨hspace, htop, hr⟩ := hs l hmem
      obtain ⟨value, rfl⟩ := Instruction.exec_eq_write hdest hexec
      have hget : (transferInstruction op s).get l = s.get l := by
        rw [htransfer, ConstState.get_set_of_ne s v hne]
      refine ⟨hspace, hget ▸ htop, fun x hx => ?_⟩
      rw [State.cells_write_of_ne σ hne]
      exact hr x (hget ▸ hx)

end Step

end Settled

section Run

variable {f : Function} {r : DataflowResult ConstState}

theorem Knows.edge (hrev : EdgesReversed f) (hr : Solved f constantPropagation r)
    {b d : BasicBlock} (hb : b ∈ f.blocks) (hd : d ∈ f.blocks)
    (hedge : d.startAddress ∈ b.successors) {σ : State} {l : Location}
    (h : Knows (after b.ops (inOf b r.blockOut) b.ops.length) σ l) :
    Knows (inOf d r.blockOut) σ l := by
  have hpred : b.startAddress ∈ d.predecessors := (hrev d hd _).mpr ⟨b, hb, rfl, hedge⟩
  have hle := inOf_get_le hpred r.blockOut l
  rw [outs_eq_after hr hb] at hle
  refine ⟨h.space, fun htop => ?_, fun x hx => ?_⟩
  · rcases ConstValue.le_iff.mp hle with hv | hv | hv
    · exact h.ne_top (hv.symm.trans htop)
    · cases htop.symm.trans hv
    · exact h.ne_top hv
  · rcases ConstValue.le_iff.mp hle with hv | hv | hv
    · exact h.right x (hv.symm.trans hx)
    · cases hx.symm.trans hv
    · exact absurd hv h.ne_top

/-- The settled locations of a run are known at every point it comes to. -/
structure Tracks (f : Function) (r : DataflowResult ConstState) (settled : Finset Location)
    (c : Config) : Prop where
  bounded : c.state.Bounded
  exists_in : ∃ b, c.In f.blocks b
  knows : ∀ b, c.In f.blocks b → ∀ l ∈ settled,
    Knows (after b.ops (inOf b r.blockOut) c.done) c.state l

variable {flat : List LiftedInstruction} (hg : IsGraphOf flat f) (hflat : IsLifted f.entry flat)
  (hcalls : ∀ b ∈ f.blocks, ∀ op ∈ b.ops, ∀ target, op ≠ .call target)
  {fuel : ℕ} (hr : solveForward fuel f constantPropagation = .ok r)
  {settled : Finset Location} {c : Config}

include hg

theorem Config.In.eq {b d : BasicBlock} (hb : c.In f.blocks b) (hd : c.In f.blocks d) : b = d :=
  List.inj_on_of_nodup_map hg.nodup_starts hb.mem hd.mem (hb.start.trans hd.start.symm)

theorem opAt_eq {b : BasicBlock} (hb : c.In f.blocks b) : opAt f.blocks c = b.ops[c.done]? := by
  rw [opAt, (blockStarting_eq_some hg.nodup_starts).mpr ⟨hb.mem, hb.start⟩, Option.bind_some]

include hflat hr

/-- The analysis is right about every operand of a step that is not misled. -/
theorem Tracks.right (ht : Tracks f r settled c) (hm : ¬ Misled f.blocks settled c)
    {b : BasicBlock} (hb : c.In f.blocks b) {op : Instruction}
    (hop : b.ops[c.done]? = some op) :
    ∀ v ∈ op.operands, Right (after b.ops (inOf b r.blockOut) c.done) c.state v := by
  intro v hv
  by_cases hspace : v.space = .constant
  · exact right_of_constant hspace
  by_cases hmem : v.location ∈ settled
  · exact (ht.knows b hb _ hmem).read
  intro x hx
  by_contra hne
  refine hm ⟨op, (opAt_eq hg hb).trans hop, v, hv, hspace, hmem, x, ?_, hne⟩
  rw [← hb.start]
  exact (get_eq_const_iff (fun b hb op hop => hg.wellFormed hflat hb hop) hg.nodup_starts
    hg.edgesReversed hr hb.mem hb.done_le).mp hx

include hcalls

theorem Tracks.step {callee : BranchTarget → State → State} {c' : Config}
    (ht : Tracks f r settled c) (hm : ¬ Misled f.blocks settled c)
    (hstep : Cfg.step callee f.blocks c = some c') :
    Tracks f r (match opAt f.blocks c with
      | some op => settledBy op settled
      | none => settled) c' := by
  obtain ⟨b, hb⟩ := ht.exists_in
  have hlast : ∀ li ∈ flat, ∀ op ∈ li.ops.dropLast, op.isTerminator = false := fun li hli =>
    (hflat.shaped li hli).terminator_last
  have hsolved := solveForward_solved hg.nodup_starts hg.edgesReversed hr
  rw [opAt_eq hg hb]
  rcases hg.cfg.step_cases hlast hg.nodup hb hstep with
    ⟨op, σ, hop, -, hexec, rfl, hin⟩ | ⟨d, hd, hedge, rfl, hterm⟩
  · have hmem := List.mem_of_getElem? hop
    have hwf := hg.wellFormed hflat hb.mem hmem
    have hcall := hcalls b hb.mem op hmem
    refine ⟨ht.bounded.exec (fun t h => absurd h (hcall t)) hexec, ⟨b, hin⟩, fun d hd l hl => ?_⟩
    obtain rfl := Config.In.eq hg hin hd
    rw [hop] at hl
    rw [after_succ hop]
    exact Knows.settledBy hwf (ht.knows b hb) hcall ht.bounded
      (ht.right hg hflat hr hm hb hop) hexec l hl
  · have hin : Config.In f.blocks ⟨d.startAddress, 0, c.state⟩ d :=
      ⟨hd, rfl, Nat.zero_le _, by simp⟩
    refine ⟨ht.bounded, ⟨d, hin⟩, fun e he l hl => ?_⟩
    obtain rfl := Config.In.eq hg hin he
    have hsettled : l ∈ settled := by
      cases hop : b.ops[c.done]? with
      | none => rwa [hop] at hl
      | some op =>
        have hdone := (List.getElem?_eq_some_iff.mp hop)
        have ht := hterm op (by
          rw [List.drop_eq_getElem_cons hdone.1, hdone.2]
          exact List.mem_cons_self)
        rw [hop] at hl
        cases op <;> first | exact hl | cases ht
    have hk := ht.knows b hb l hsettled
    rw [← after_of_terminators hterm] at hk
    exact hk.edge hg.edgesReversed hsolved hb.mem hd hedge

variable {callee : BranchTarget → State → State}

/-- As long as no step is misled, the two functions run alike and the settled
locations stay known. -/
theorem Tracks.run (ht : Tracks f r ∅ c) {n : ℕ}
    (hm : ∀ m < n, ∀ c', Cfg.run callee f.blocks c m = some c' →
      ¬ Misled f.blocks (settledAfter callee f.blocks c m) c') :
    Cfg.run callee (rewrite f r).blocks c n = Cfg.run callee f.blocks c n ∧
      ∀ c', Cfg.run callee f.blocks c n = some c' →
        Tracks f r (settledAfter callee f.blocks c n) c' := by
  induction n with
  | zero =>
    refine ⟨rfl, fun c' hc' => ?_⟩
    obtain rfl := Option.some.inj hc'
    exact ht
  | succ n ih =>
    obtain ⟨hrun, htracks⟩ := ih fun m hmn => hm m (Nat.lt_succ_of_lt hmn)
    rw [Cfg.run, Cfg.run, hrun]
    cases hn : Cfg.run callee f.blocks c n with
    | none => exact ⟨rfl, nofun⟩
    | some d =>
      have hd := htracks d hn
      have hmis := hm n (Nat.lt_succ_self n) d hn
      obtain ⟨b, hb⟩ := hd.exists_in
      rw [Option.bind_some, Option.bind_some]
      refine ⟨?_, fun c' hc' => ?_⟩
      · refine step_rewrite hg.nodup_starts (solveForward_solved hg.nodup_starts
          hg.edgesReversed hr) hb hd.bounded fun op hop => ⟨?_, hd.right hg hflat hr hmis hb hop⟩
        exact hg.wellFormed hflat hb.mem (List.mem_of_getElem? hop)
      · have hnext := hd.step hg hflat hcalls hr hmis hc'
        rw [settledAfter, hn, Option.bind_some]
        exact hnext

end Run

def CallFree (f : Function) : Prop := ∀ b ∈ f.blocks, ∀ op ∈ b.ops, op.isCall = false

/-- The runs from the entry on are the same as long as no step is misled: they take
the same path, perform the same stores and give every varnode the same value. -/
def PreservesRuns (f g : Function) : Prop :=
  ∀ (callee : BranchTarget → State → State) (σ : State), σ.Bounded → ∀ n : ℕ,
    (∀ m < n, ∀ c, Cfg.run callee f.blocks ⟨f.entry, 0, σ⟩ m = some c →
      ¬ Misled f.blocks (settledAfter callee f.blocks ⟨f.entry, 0, σ⟩ m) c) →
    Cfg.run callee g.blocks ⟨g.entry, 0, σ⟩ n = Cfg.run callee f.blocks ⟨f.entry, 0, σ⟩ n

theorem run_preservesRuns {arch : Arch} {name : String} {bytes : List UInt8} {base : Address}
    {f : Function} (hf : arch.processFunction name bytes base = .ok f) :
    ∃ g, build f = .ok g ∧ ∃ h, run g = .ok h ∧ (CallFree g → PreservesRuns g h) := by
  obtain ⟨flat, rfl, hflat⟩ := arch.processFunction_eq_ok hf
  obtain ⟨g, hbuild, rfl, hg⟩ := @build_ofStream name base flat hflat.nodup
  obtain ⟨r, -, hrun, hr⟩ := run_eq_ok hg.nodup_starts hg.edgesReversed
  refine ⟨g, hbuild, rewrite g r, hrun, fun hcalls callee σ hσ n hm => ?_⟩
  have hcalls : ∀ b ∈ g.blocks, ∀ op ∈ b.ops, ∀ target, op ≠ .call target := by
    rintro b hb op hop target rfl
    cases hcalls b hb _ hop
  cases hentry : blockStarting g.blocks g.entry with
  | none =>
    -- without a block at the entry neither function takes a step
    have hnone : ∀ bs : List BasicBlock, blockStarting bs g.entry = none → ∀ n,
        Cfg.run callee bs ⟨g.entry, 0, σ⟩ (n + 1) = none := by
      intro bs hbs n
      induction n with
      | zero => simp [Cfg.run, step, hbs]
      | succ n ih => rw [Cfg.run, ih, Option.bind_none]
    cases n with
    | zero => rfl
    | succ n =>
      rw [hnone _ hentry]
      exact hnone _ (by rw [rewrite_blocks, blockStarting_map, hentry]; rfl) n
  | some b =>
    obtain ⟨hb, hstart⟩ := (blockStarting_eq_some hg.nodup_starts).mp hentry
    have ht : Tracks g r ∅ ⟨g.entry, 0, σ⟩ :=
      ⟨hσ, ⟨b, hb, hstart, Nat.zero_le _, by simp⟩, by simp⟩
    exact (ht.run hg hflat hcalls hr hm).1

/-- `mov eax, 5; mov ebx, eax; jmp` back to the first of them. -/
def constantLoop : List UInt8 := [0xB8, 0x05, 0x00, 0x00, 0x00, 0x89, 0xC3, 0xEB, 0xF7]

/-- The second move reads what the first has settled, and becomes a move of `5`. -/
theorem run_preservesRuns_constantLoop :
    ∃ f, Arch.x86.processFunction "input" constantLoop 0x1000 = .ok f ∧
      ∃ g, build f = .ok g ∧ ∃ h, run g = .ok h ∧
        h.blocks.map (fun b => b.ops[1]?) =
          [some (.copy (X86.regVarnode .ebx) (.constant 5 4))] ∧
        Cfg.run (fun _ σ => σ) h.blocks ⟨h.entry, 0, .zero⟩ 5 =
          Cfg.run (fun _ σ => σ) g.blocks ⟨g.entry, 0, .zero⟩ 5 := by
  have hrun : ∃ f, Arch.x86.processFunction "input" constantLoop 0x1000 = .ok f ∧
      ∃ g, build f = .ok g ∧ ∃ h, run g = .ok h ∧
        h.blocks.map (fun b => b.ops[1]?) =
          [some (.copy (X86.regVarnode .ebx) (.constant 5 4))] ∧
        (∀ b ∈ g.blocks, ∀ op ∈ b.ops, op.isCall = false) ∧
        ∀ m ∈ List.range 5,
          (Cfg.run (fun _ σ => σ) g.blocks ⟨g.entry, 0, .zero⟩ m).all fun c =>
            (opAt g.blocks c).all fun op => op.operands.all fun v => v.space = .constant ∨
              v.location ∈ settledAfter (fun _ σ => σ) g.blocks ⟨g.entry, 0, .zero⟩ m := by
    decide +kernel
  obtain ⟨f, hf, g, hg, h, hh, hops, hcalls, hsettled⟩ := hrun
  obtain ⟨g', hg', h', hh', hpreserves⟩ := run_preservesRuns hf
  obtain rfl := Except.ok.inj (hg.symm.trans hg')
  obtain rfl := Except.ok.inj (hh.symm.trans hh')
  refine ⟨f, hf, g, hg, h, hh, hops, ?_⟩
  refine hpreserves hcalls (fun _ σ => σ) .zero State.bounded_zero 5 fun m hm c hc => ?_
  rintro ⟨op, hop, v, hv, hspace, hnot, -⟩
  have hall := hsettled m (List.mem_range.mpr hm)
  rw [hc, Option.all_some, hop, Option.all_some, List.all_eq_true] at hall
  exact (of_decide_eq_true (hall v hv)).elim hspace hnot

/-- `mov ebx, eax; mov eax, 5; jmp` back to the first of them: `eax` is what the caller
left there in the first iteration and `5` in the others. -/
def callerLoop : List UInt8 := [0x89, 0xC3, 0xB8, 0x05, 0x00, 0x00, 0x00, 0xEB, 0xF7]

/-- The pass does not preserve the first iteration for a caller that leaves `7`. -/
theorem run_changes_callerLoop :
    ∃ f, Arch.x86.processFunction "input" callerLoop 0x1000 = .ok f ∧
      ∃ g, build f = .ok g ∧ ∃ h, run g = .ok h ∧ CallFree g ∧
        ∃ (callee : BranchTarget → State → State) (σ : State), σ.Bounded ∧
          (Cfg.run callee g.blocks ⟨g.entry, 0, σ⟩ 1).map
            (·.state.read (X86.regVarnode .ebx)) = some 7 ∧
          (Cfg.run callee h.blocks ⟨h.entry, 0, σ⟩ 1).map
            (·.state.read (X86.regVarnode .ebx)) = some 5 := by
  have hrun : ∃ f, Arch.x86.processFunction "input" callerLoop 0x1000 = .ok f ∧
      ∃ g, build f = .ok g ∧ ∃ h, run g = .ok h ∧
        (∀ b ∈ g.blocks, ∀ op ∈ b.ops, op.isCall = false) ∧
          (Cfg.run (fun _ σ => σ) g.blocks
            ⟨g.entry, 0, State.zero.write (X86.regVarnode .eax) 7⟩ 1).map
            (·.state.read (X86.regVarnode .ebx)) = some 7 ∧
          (Cfg.run (fun _ σ => σ) h.blocks
            ⟨h.entry, 0, State.zero.write (X86.regVarnode .eax) 7⟩ 1).map
            (·.state.read (X86.regVarnode .ebx)) = some 5 := by decide +kernel
  obtain ⟨f, hf, g, hg, h, hh, hcalls, hruns⟩ := hrun
  exact ⟨f, hf, g, hg, h, hh, hcalls, _, _, State.bounded_zero.write _ _, hruns⟩

end Decompiler.ConstProp
