import Decompiler.Cfg.Runs
import Decompiler.Cli.Decoded

/-! # Executing a graph

The machine executes the operations of a block one by one. A jump enters the block
that starts at its target, and control that falls off the end of a block enters the
next block in program order.
-/

namespace Decompiler

namespace Instruction

variable {op : Instruction} {σ : State}

theorem mayFall_of_control (h : op.control σ = .fall) : op.mayFall := by
  cases op with
  | branch target => cases h
  | ret => cases h
  | _ => rfl

theorem of_control_jump {target : BranchTarget} (h : op.control σ = .jump target) :
    op.isTerminator ∧ op.branchTarget? = target.address? := by
  cases op with
  | branch t =>
    obtain rfl := Control.jump.inj h
    exact ⟨rfl, rfl⟩
  | cbranch condition t =>
    rw [control] at h
    split at h
    · obtain rfl := Control.jump.inj h
      exact ⟨rfl, rfl⟩
    · cases h
  | _ => cases h

end Instruction

namespace Cfg

structure Config where
  block : Address
  done : ℕ
  state : State

variable {bs : List BasicBlock}

def blockStarting (bs : List BasicBlock) (a : Address) : Option BasicBlock :=
  bs.find? (·.startAddress == a)

def nextAfter (bs : List BasicBlock) (a : Address) : Option Address :=
  (bs.findIdx? (·.startAddress == a)).bind fun i => startAt bs (i + 1)

def opAt (bs : List BasicBlock) (c : Config) : Option Instruction :=
  (blockStarting bs c.block).bind fun b => b.ops[c.done]?

def enter (bs : List BasicBlock) (target : Option Address) (σ : State) : Option Config :=
  (target.bind (blockStarting bs)).map fun b => ⟨b.startAddress, 0, σ⟩

def step (callee : BranchTarget → State → State) (bs : List BasicBlock) (c : Config) :
    Option Config :=
  (blockStarting bs c.block).bind fun b =>
    match b.ops[c.done]? with
    | none => enter bs (nextAfter bs c.block) c.state
    | some op =>
      match op.control c.state with
      | .fall => (op.exec callee c.state).map fun σ => ⟨c.block, c.done + 1, σ⟩
      | .jump target => enter bs target.address? c.state
      | .stop => none

def run (callee : BranchTarget → State → State) (bs : List BasicBlock) (c : Config) :
    ℕ → Option Config
  | 0 => some c
  | n + 1 => (run callee bs c n).bind (step callee bs)

theorem blockStarting_eq_some (hnd : (bs.map BasicBlock.startAddress).Nodup) {a : Address}
    {b : BasicBlock} : blockStarting bs a = some b ↔ b ∈ bs ∧ b.startAddress = a := by
  constructor
  · intro h
    exact ⟨List.mem_of_find?_eq_some h, by simpa using List.find?_some h⟩
  · rintro ⟨hb, rfl⟩
    have hsome : (bs.find? (·.startAddress == b.startAddress)).isSome :=
      List.find?_isSome.mpr ⟨b, hb, beq_self_eq_true b.startAddress⟩
    obtain ⟨c, hc⟩ := Option.isSome_iff_exists.mp hsome
    have hcb : c.startAddress = b.startAddress := by simpa using List.find?_some hc
    rw [blockStarting, hc,
      List.inj_on_of_nodup_map hnd (List.mem_of_find?_eq_some hc) hb hcb]

theorem nextAfter_eq_some (hnd : (bs.map BasicBlock.startAddress).Nodup) {b : BasicBlock}
    (hb : b ∈ bs) {a : Address} :
    nextAfter bs b.startAddress = some a ↔ ∃ c, Follows bs b c ∧ c.startAddress = a := by
  obtain ⟨i, hi, hget⟩ := List.getElem_of_mem hb
  have hidx : bs.findIdx? (·.startAddress == b.startAddress) = some i := by
    rw [List.findIdx?_eq_some_iff_getElem]
    refine ⟨hi, by simp [hget], fun j hj => ?_⟩
    have hne : bs[j].startAddress ≠ b.startAddress := by
      intro he
      have hi' : i < (bs.map BasicBlock.startAddress).length := by simpa using hi
      have hj' : j < (bs.map BasicBlock.startAddress).length := hj.trans hi'
      have hmap : (bs.map BasicBlock.startAddress)[j] = (bs.map BasicBlock.startAddress)[i] := by
        simp [he, hget]
      exact absurd (hnd.getElem_inj_iff.mp hmap) (Nat.ne_of_lt hj)
    simpa using hne
  have hbi : bs[i]? = some b := by simp [hi, hget]
  rw [nextAfter, hidx, Option.bind_some, startAt, Option.map_eq_some_iff]
  constructor
  · rintro ⟨c, hc, rfl⟩
    exact ⟨c, Follows.getElem? hbi hc, rfl⟩
  · rintro ⟨c, hbc, rfl⟩
    obtain ⟨j, hj, hc⟩ := hbc.exists_getElem?
    have hij : i = j := (List.getElem?_inj hi hnd.of_map).mp (hbi.trans hj.symm)
    exact ⟨c, hij ▸ hc, rfl⟩

theorem enter_eq_some (hnd : (bs.map BasicBlock.startAddress).Nodup) {target : Option Address}
    {σ : State} {c : Config} :
    enter bs target σ = some c ↔ ∃ b ∈ bs, target = some b.startAddress ∧
      c = ⟨b.startAddress, 0, σ⟩ := by
  cases target with
  | none => simp [enter]
  | some a =>
    simp only [enter, Option.bind_some, Option.map_eq_some_iff, blockStarting_eq_some hnd,
      Option.some.injEq]
    constructor
    · rintro ⟨b, ⟨hb, rfl⟩, rfl⟩
      exact ⟨b, hb, rfl, rfl⟩
    · rintro ⟨b, hb, rfl, rfl⟩
      exact ⟨b, ⟨hb, rfl⟩, rfl⟩

theorem mem_ops {b : BasicBlock} {op : Instruction} :
    op ∈ b.ops ↔ ∃ li ∈ b.instructions, op ∈ li.ops := by
  simp [BasicBlock.ops]

theorem mem_dropLast_ops {b : BasicBlock} {op : Instruction} (h : op ∈ b.ops.dropLast) :
    (∃ li ∈ b.instructions.dropLast, op ∈ li.ops) ∨
      ∃ last, b.lastInstruction = some last ∧ op ∈ last.ops.dropLast := by
  cases hlast : b.lastInstruction with
  | none => simp [BasicBlock.ops, List.getLast?_eq_none_iff.mp hlast] at h
  | some last =>
    obtain ⟨init, hinit⟩ := List.getLast?_eq_some_iff.mp hlast
    rw [BasicBlock.ops, hinit, List.flatMap_append, List.flatMap_singleton] at h
    rw [hinit, List.dropLast_concat]
    by_cases hne : last.ops = []
    · rw [hne, List.append_nil] at h
      exact Or.inl (List.mem_flatMap.mp (List.mem_of_mem_dropLast h))
    · rw [List.dropLast_append_of_ne_nil hne] at h
      rcases List.mem_append.mp h with h | h
      · exact Or.inl (List.mem_flatMap.mp h)
      · exact Or.inr ⟨last, rfl, h⟩

/-- A configuration is in a block, past operations that may fall through. -/
structure Config.In (bs : List BasicBlock) (c : Config) (b : BasicBlock) : Prop where
  mem : b ∈ bs
  start : b.startAddress = c.block
  done_le : c.done ≤ b.ops.length
  fell : ∀ op ∈ b.ops.take c.done, op.mayFall

variable {flat : List LiftedInstruction} {entry : Address} (h : IsCfg flat entry bs)
  (hlast : ∀ li ∈ flat, ∀ op ∈ li.ops.dropLast, op.isTerminator = false)

include h hlast in
theorem IsCfg.isTerminator_dropLast {b : BasicBlock} (hb : b ∈ bs) {op : Instruction}
    (hop : op ∈ b.ops.dropLast) : op.isTerminator = false := by
  rcases mem_dropLast_ops hop with ⟨li, hli, hop⟩ | ⟨last, hl, hop⟩
  · obtain ⟨y, hy⟩ := Follows.exists_of_mem_dropLast hli
    by_contra ht
    exact h.not_hasTerminator_of_follows hb hy ⟨op, hop, by simpa using ht⟩
  · exact hlast last (h.mem_flat hb (List.mem_of_getLast? hl)) op hop

include h hlast in
theorem IsCfg.getLast?_ops {b : BasicBlock} (hb : b ∈ bs) {op : Instruction} {i : ℕ}
    (hop : b.ops[i]? = some op) (ht : op.isTerminator) : i + 1 = b.ops.length := by
  obtain ⟨hi, hget⟩ := List.getElem?_eq_some_iff.mp hop
  by_contra hne
  have hi' : i < b.ops.dropLast.length := by rw [List.length_dropLast]; omega
  have hmem : op ∈ b.ops.dropLast := by
    rw [← hget, ← List.getElem_dropLast hi']
    exact List.getElem_mem hi'
  rw [h.isTerminator_dropLast hlast hb hmem] at ht
  cases ht

include h hlast in
/-- A step executes an operation of the block, or goes along an edge from its end. -/
theorem IsCfg.step_cases (hnd : (flat.map LiftedInstruction.address).Nodup)
    {callee : BranchTarget → State → State} {c c' : Config} {b : BasicBlock}
    (hc : c.In bs b) (hstep : step callee bs c = some c') :
    (∃ op σ, b.ops[c.done]? = some op ∧ op.control c.state = .fall ∧
      op.exec callee c.state = some σ ∧ c' = ⟨c.block, c.done + 1, σ⟩ ∧ c'.In bs b) ∨
    (∃ d ∈ bs, d.startAddress ∈ b.successors ∧ c' = ⟨d.startAddress, 0, c.state⟩ ∧
      ∀ op ∈ b.ops.drop c.done, op.isTerminator) := by
  have hstarts := h.nodup_starts hnd
  obtain ⟨last, hl⟩ := h.exists_last hc.mem
  rw [step, (blockStarting_eq_some hstarts).mpr ⟨hc.mem, hc.start⟩, Option.bind_some] at hstep
  split at hstep
  case h_1 hend =>
    have hdone : b.ops.length ≤ c.done := List.getElem?_eq_none_iff.mp hend
    obtain ⟨d, hd, hnext, rfl⟩ := (enter_eq_some hstarts).mp hstep
    rw [← hc.start, nextAfter_eq_some hstarts hc.mem] at hnext
    refine Or.inr ⟨d, hd, (h.mem_successors hnd hc.mem hl).mpr (Or.inr ⟨?_, hnext⟩), rfl, ?_⟩
    · by_contra hfall
      rw [LiftedInstruction.FallsThrough, not_or, not_not] at hfall
      obtain ⟨⟨op, hop, ht⟩, hcb⟩ := hfall
      have hmem := mem_ops.mpr ⟨last, List.mem_of_getLast? hl, hop⟩
      rw [← List.take_of_length_le hdone] at hmem
      have hfell := hc.fell op hmem
      rw [Instruction.mayFall, ht, Bool.not_true, Bool.false_or] at hfell
      exact hcb ⟨op, hop, hfell⟩
    · simp [List.drop_of_length_le hdone]
  case h_2 op hget =>
    have hmem := List.mem_of_getElem? hget
    split at hstep
    case h_1 hfall =>
      obtain ⟨σ, hexec, rfl⟩ := Option.map_eq_some_iff.mp hstep
      refine Or.inl ⟨op, σ, hget, hfall, hexec, rfl, hc.mem, hc.start, ?_, ?_⟩
      · exact (List.getElem?_eq_some_iff.mp hget).1
      · intro o ho
        rw [List.take_add_one, hget, Option.toList_some, List.mem_append,
          List.mem_singleton] at ho
        rcases ho with ho | rfl
        · exact hc.fell o ho
        · exact Instruction.mayFall_of_control hfall
    case h_2 target hjump =>
      obtain ⟨ht, htarget⟩ := Instruction.of_control_jump hjump
      obtain ⟨d, hd, hda, rfl⟩ := (enter_eq_some hstarts).mp hstep
      obtain ⟨li, hli, hop⟩ := mem_ops.mp hmem
      have hlast' := h.last_of_hasTerminator hc.mem hli ⟨op, hop, ht⟩
      refine Or.inr ⟨d, hd, (h.mem_successors hnd hc.mem hlast').mpr
        (Or.inl ⟨⟨op, hop, htarget.trans hda⟩, d, hd, rfl⟩), rfl, fun o ho => ?_⟩
      have hlen := h.getLast?_ops hlast hc.mem hget ht
      rw [List.drop_eq_getElem_cons (by omega), hlen, List.drop_length,
        List.mem_singleton] at ho
      obtain ⟨_, hget⟩ := List.getElem?_eq_some_iff.mp hget
      rw [ho, hget, ht]
    case h_3 => cases hstep

end Cfg

end Decompiler
