import Decompiler.Cfg.Rebuild

/-! # Code at other addresses

Every address of the code is replaced by another one. Where the replacement is injective and
keeps the order of the blocks, the graph of the code is replaced in the same way.
-/

namespace Decompiler

section Definitions

variable (φ : Address → Address)

def BranchTarget.relocate : BranchTarget → BranchTarget
  | .absolute address => .absolute (φ address)
  | .indirect => .indirect

/-- Operations have addresses as targets only; operands stay as they are. -/
def Instruction.relocate : Instruction → Instruction
  | .branch target => .branch (target.relocate φ)
  | .cbranch condition target => .cbranch condition (target.relocate φ)
  | .call target => .call (target.relocate φ)
  | op => op

def LiftedInstruction.relocate (li : LiftedInstruction) : LiftedInstruction :=
  ⟨φ li.address, li.ops.map (Instruction.relocate φ)⟩

def BasicBlock.relocate (b : BasicBlock) : BasicBlock where
  startAddress := φ b.startAddress
  instructions := b.instructions.map (LiftedInstruction.relocate φ)
  successors := b.successors.map φ
  predecessors := b.predecessors.map φ

mutual

def HighLevelAst.relocate : HighLevelAst → HighLevelAst
  | .block a ops => .block (φ a) (ops.map (Instruction.relocate φ))
  | .seq nodes => .seq (relocateNodes nodes)
  | .ifElse cond thenBody elseBody => .ifElse cond thenBody.relocate (relocateElse elseBody)
  | .whileDo cond body => .whileDo cond body.relocate
  | .goto target => .goto (φ target)
  | .label address => .label (φ address)
  | .ret => .ret

def relocateNodes : List HighLevelAst → List HighLevelAst
  | [] => []
  | node :: nodes => node.relocate :: relocateNodes nodes

def relocateElse : Option HighLevelAst → Option HighLevelAst
  | none => none
  | some elseBody => some elseBody.relocate

end

end Definitions

section Lemmas

variable {φ : Address → Address} {op : Instruction} {li : LiftedInstruction} {b : BasicBlock}

@[simp] theorem relocateNodes_eq_map (nodes : List HighLevelAst) :
    relocateNodes φ nodes = nodes.map (HighLevelAst.relocate φ) := by
  induction nodes with
  | nil => rfl
  | cons node nodes ih => rw [relocateNodes, ih, List.map_cons]

@[simp] theorem BasicBlock.relocate_startAddress :
    (b.relocate φ).startAddress = φ b.startAddress := rfl

@[simp] theorem BasicBlock.relocate_successors :
    (b.relocate φ).successors = b.successors.map φ := rfl

@[simp] theorem BasicBlock.relocate_predecessors :
    (b.relocate φ).predecessors = b.predecessors.map φ := rfl

@[simp] theorem BasicBlock.relocate_instructions :
    (b.relocate φ).instructions = b.instructions.map (LiftedInstruction.relocate φ) := rfl

@[simp] theorem LiftedInstruction.relocate_address : (li.relocate φ).address = φ li.address := rfl

@[simp] theorem LiftedInstruction.relocate_ops :
    (li.relocate φ).ops = li.ops.map (Instruction.relocate φ) := rfl

@[simp] theorem BasicBlock.relocate_ops :
    (b.relocate φ).ops = b.ops.map (Instruction.relocate φ) := by
  simp [BasicBlock.ops, List.flatMap_map, List.map_flatMap]

@[simp] theorem BasicBlock.relocate_lastInstruction :
    (b.relocate φ).lastInstruction = b.lastInstruction.map (LiftedInstruction.relocate φ) := by
  simp [BasicBlock.lastInstruction]

namespace Instruction

@[simp] theorem relocate_isTerminator : (op.relocate φ).isTerminator = op.isTerminator := by
  cases op <;> rfl

@[simp] theorem relocate_isCbranch : (op.relocate φ).isCbranch = op.isCbranch := by
  cases op <;> rfl

@[simp] theorem relocate_opDest : (op.relocate φ).opDest = op.opDest := by
  cases op <;> rfl

@[simp] theorem relocate_branchTarget? :
    (op.relocate φ).branchTarget? = op.branchTarget?.map φ := by
  cases op with
  | branch target | cbranch _ target => cases target <;> rfl
  | _ => rfl

end Instruction

namespace LiftedInstruction

@[simp] theorem relocate_hasTerminator : (li.relocate φ).hasTerminator ↔ li.hasTerminator := by
  simp [hasTerminator]

@[simp] theorem relocate_fallsThrough : (li.relocate φ).FallsThrough ↔ li.FallsThrough := by
  simp [FallsThrough]

theorem relocate_targets {a : Address} :
    (li.relocate φ).Targets a ↔ ∃ a₀, li.Targets a₀ ∧ φ a₀ = a := by
  simp only [Targets, relocate_ops, List.mem_map, exists_exists_and_eq_and,
    Instruction.relocate_branchTarget?, Option.map_eq_some_iff]
  constructor
  · rintro ⟨op, hop, a₀, htarget, rfl⟩
    exact ⟨a₀, ⟨op, hop, htarget⟩, rfl⟩
  · rintro ⟨a₀, ⟨op, hop, htarget⟩, rfl⟩
    exact ⟨op, hop, a₀, htarget, rfl⟩

end LiftedInstruction

end Lemmas

namespace Cfg

variable {φ : Address → Address} (hφ : Function.Injective φ) {flat : List LiftedInstruction}
  {entry : Address} {bs : List BasicBlock}

section Stream

include hφ

theorem isLeader_relocate {a : Address} :
    IsLeader (flat.map (LiftedInstruction.relocate φ)) (φ entry) (φ a) ↔
      IsLeader flat entry a := by
  constructor
  · rintro ((hentry | hhead) | ⟨_, hli, htarget⟩ | ⟨x, y, hxy, hx, hy⟩)
    · exact .inl (.inl (hφ hentry))
    · refine .inl (.inr ?_)
      rw [List.head?_map, Option.map_map] at hhead
      obtain ⟨first, hfirst, heq⟩ := Option.map_eq_some_iff.mp hhead
      rw [hfirst, Option.map_some, hφ heq]
    · obtain ⟨li, hmem, rfl⟩ := List.mem_map.mp hli
      obtain ⟨a₀, ht, heq⟩ := LiftedInstruction.relocate_targets.mp htarget
      exact .inr (.inl ⟨li, hmem, hφ heq ▸ ht⟩)
    · obtain ⟨u, v, huv, rfl, rfl⟩ := Follows.of_map hxy
      exact .inr (.inr ⟨u, v, huv, LiftedInstruction.relocate_hasTerminator.mp hx, hφ hy⟩)
  · rintro ((rfl | hhead) | ⟨li, hli, htarget⟩ | ⟨x, y, hxy, hx, rfl⟩)
    · exact .inl (.inl rfl)
    · obtain ⟨first, hfirst, rfl⟩ := Option.map_eq_some_iff.mp hhead
      exact .inl (.inr (by simp [hfirst]))
    · exact .inr (.inl ⟨_, List.mem_map_of_mem hli,
        LiftedInstruction.relocate_targets.mpr ⟨a, htarget, rfl⟩⟩)
    · exact .inr (.inr ⟨_, _, hxy.map _, LiftedInstruction.relocate_hasTerminator.mpr hx, rfl⟩)

theorem IsSplit.relocate (h : IsSplit (IsLeader flat entry) flat bs) :
    IsSplit (IsLeader (flat.map (LiftedInstruction.relocate φ)) (φ entry))
      (flat.map (LiftedInstruction.relocate φ)) (bs.map (BasicBlock.relocate φ)) where
  flatten := by
    rw [← h.flatten, List.flatMap_map, List.map_flatMap]
    rfl
  piece := by
    rintro b' hb'
    obtain ⟨b, hb, rfl⟩ := List.mem_map.mp hb'
    obtain ⟨first, rest, hinstr, hfirst, hrest⟩ := h.piece b hb
    refine ⟨first.relocate φ, rest.map (LiftedInstruction.relocate φ), by simp [hinstr],
      by simp [hfirst], fun li' hli' => ?_⟩
    obtain ⟨li, hli, rfl⟩ := List.mem_map.mp hli'
    exact fun hleader => hrest li hli ((isLeader_relocate hφ).mp hleader)
  start := by
    rintro b' hb'
    obtain ⟨b, hb, rfl⟩ := List.mem_map.mp hb'
    refine (h.start b hb).imp (isLeader_relocate hφ).mpr fun hhead => ?_
    obtain ⟨first, hfirst, heq⟩ := Option.map_eq_some_iff.mp hhead
    simp [hfirst, heq]

end Stream

theorem startAt_relocate (i : ℕ) :
    startAt (bs.map (BasicBlock.relocate φ)) i = (startAt bs i).map φ := by
  simp [startAt, Function.comp_def]

theorem mem_starts_relocate {a : Address} :
    a ∈ starts (bs.map (BasicBlock.relocate φ)) ↔ ∃ a₀ ∈ starts bs, φ a₀ = a := by
  simp only [mem_starts, List.mem_map, exists_exists_and_eq_and, BasicBlock.relocate_startAddress]

def KeepsOrder (φ : Address → Address) (s : Finset Address) : Prop :=
  ∀ a ∈ s, ∀ b ∈ s, a < b → φ a < φ b

theorem pairwise_map_relocate (hmono : KeepsOrder φ (starts bs)) {l : List Address}
    (hl : l.Pairwise (· < ·)) (hin : ∀ a ∈ l, a ∈ starts bs) :
    (l.map φ).Pairwise (· < ·) := by
  rw [List.pairwise_map]
  exact hl.imp_of_mem fun ha hb hab => hmono _ (hin _ ha) _ (hin _ hb) hab

section Graph

variable (hmono : KeepsOrder φ (starts bs))

include hφ hmono

theorem blockSuccessors_relocate {b : BasicBlock} (hb : b.instructions ≠ []) (i : ℕ) :
    blockSuccessors (starts (bs.map (BasicBlock.relocate φ))) ((startAt bs i).map φ)
        (b.relocate φ) = (blockSuccessors (starts bs) (startAt bs i) b).map φ := by
  obtain ⟨last, hlast⟩ : ∃ last, b.lastInstruction = some last :=
    ⟨_, List.getLast?_eq_some_getLast hb⟩
  have hlast' : (b.relocate φ).lastInstruction = some (last.relocate φ) := by simp [hlast]
  have hknown : ∀ a ∈ blockSuccessors (starts bs) (startAt bs i) b, a ∈ starts bs := by
    intro a ha
    rcases (mem_blockSuccessors hlast).mp ha with ⟨-, hmem⟩ | ⟨-, hnext⟩
    · exact hmem
    · obtain ⟨c, hc, rfl⟩ := Option.map_eq_some_iff.mp hnext
      exact mem_starts.mpr ⟨c, List.mem_of_getElem? hc, rfl⟩
  apply List.Pairwise.eq_of_mem_iff (pairwise_lt_blockSuccessors _)
    (pairwise_map_relocate hmono (pairwise_lt_blockSuccessors _) hknown)
  intro a
  rw [mem_blockSuccessors hlast', List.mem_map, LiftedInstruction.relocate_targets,
    mem_starts_relocate, LiftedInstruction.relocate_fallsThrough, Option.map_eq_some_iff]
  constructor
  · rintro (⟨⟨a₀, htarget, rfl⟩, a₁, hmem, heq⟩ | ⟨hfall, a₀, hnext, rfl⟩)
    · obtain rfl := hφ heq
      exact ⟨a₁, (mem_blockSuccessors hlast).mpr (.inl ⟨htarget, hmem⟩), rfl⟩
    · exact ⟨a₀, (mem_blockSuccessors hlast).mpr (.inr ⟨hfall, hnext⟩), rfl⟩
  · rintro ⟨a₀, ha, rfl⟩
    rcases (mem_blockSuccessors hlast).mp ha with ⟨htarget, hmem⟩ | ⟨hfall, hnext⟩
    · exact .inl ⟨⟨a₀, htarget, rfl⟩, a₀, hmem, rfl⟩
    · exact .inr ⟨hfall, a₀, hnext, rfl⟩

theorem Connected.relocate (h : Connected bs) (hne : ∀ b ∈ bs, b.instructions ≠ []) :
    Connected (bs.map (BasicBlock.relocate φ)) where
  successors i b' hi := by
    rw [List.getElem?_map] at hi
    obtain ⟨b, hb, rfl⟩ := Option.map_eq_some_iff.mp hi
    rw [startAt_relocate, blockSuccessors_relocate hφ hmono (hne b (List.mem_of_getElem? hb)),
      ← h.successors i b hb]
    rfl
  predecessors_sorted := by
    rintro b' hb'
    obtain ⟨b, hb, rfl⟩ := List.mem_map.mp hb'
    refine pairwise_map_relocate hmono (h.predecessors_sorted b hb) fun a ha => ?_
    obtain ⟨c, hc, rfl, -⟩ := (h.mem_predecessors b hb a).mp ha
    exact mem_starts.mpr ⟨c, hc, rfl⟩
  mem_predecessors := by
    rintro b' hb' a
    obtain ⟨b, hb, rfl⟩ := List.mem_map.mp hb'
    rw [BasicBlock.relocate_predecessors, List.mem_map]
    constructor
    · rintro ⟨a₀, ha, rfl⟩
      obtain ⟨c, hc, rfl, hsucc⟩ := (h.mem_predecessors b hb a₀).mp ha
      exact ⟨_, List.mem_map_of_mem hc, rfl, List.mem_map_of_mem hsucc⟩
    · rintro ⟨c', hc', rfl, hsucc⟩
      obtain ⟨c, hc, rfl⟩ := List.mem_map.mp hc'
      obtain ⟨a₀, ha, heq⟩ := List.mem_map.mp hsucc
      obtain rfl := hφ heq
      exact ⟨c.startAddress, (h.mem_predecessors b hb _).mpr ⟨c, hc, rfl, ha⟩, rfl⟩

/-- The graph of the code moves with it. -/
theorem IsCfg.relocate (h : IsCfg flat entry bs) :
    IsCfg (flat.map (LiftedInstruction.relocate φ)) (φ entry)
      (bs.map (BasicBlock.relocate φ)) where
  split := h.split.relocate hφ
  connected := h.connected.relocate hφ hmono fun _ hb => h.split.instructions_ne_nil hb

end Graph

end Cfg

end Decompiler
