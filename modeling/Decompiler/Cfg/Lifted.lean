import Decompiler.Cfg.Machine
import Decompiler.Cli.Backends
import Decompiler.Dataflow.Worklist

/-! # Graphs of lifted streams

What the later passes rely on: the blocks of a built function are the graph of its
stream, the block index finds them, and their operations have the shape that the
decode loop gives them.
-/

namespace Decompiler

/-- The function that the decode loop leaves: a single block that holds the stream. -/
def Function.ofStream (name : String) (entry : Address) (flat : List LiftedInstruction) :
    Function :=
  { Function.new name entry with blocks := [⟨entry, flat, [], []⟩] }

theorem Arch.processFunction_eq_ok {arch : Arch} {name : String} {bytes : List UInt8}
    {base : Address} {f : Function} (h : arch.processFunction name bytes base = .ok f) :
    ∃ flat, f = .ofStream name base flat ∧ IsLifted base flat := by
  cases arch with
  | x86 =>
    obtain ⟨flat, rfl, hdec⟩ := processFunction_decodes h
    exact ⟨flat, rfl, hdec.isLifted X86.lawful⟩
  | arm =>
    obtain ⟨flat, rfl, hdec⟩ := processFunction_decodes h
    exact ⟨flat, rfl, hdec.isLifted Arm.lawful⟩

namespace Cfg

theorem blockStarting_eq_none {bs : List BasicBlock} {a : Address}
    (h : ∀ i, startAt bs i ≠ some a) : blockStarting bs a = none := by
  refine List.find?_eq_none.mpr fun b hb hstart => ?_
  obtain ⟨i, hi⟩ := List.getElem?_of_mem hb
  refine h i ?_
  rw [startAt, hi, Option.map_some, eq_of_beq hstart]

theorem blockAt_rebuildIndex {f : Function} (hnd : (f.blocks.map BasicBlock.startAddress).Nodup)
    (a : Address) : f.rebuildIndex.blockAt a = .ok (blockStarting f.blocks a) := by
  have hlookup : ∀ i, f.rebuildIndex.blockIndex.lookup a = some i ↔ startAt f.blocks i = some a :=
    fun _ => lookup_startToIndex hnd
  unfold Function.blockAt
  split
  case isTrue => rfl
  case isFalse =>
    cases hi : f.rebuildIndex.blockIndex.lookup a with
    | none =>
      rw [blockStarting_eq_none fun i hstart => ?_]
      have hsome := (hlookup i).mpr hstart
      rw [hi] at hsome
      cases hsome
    | some i =>
      obtain ⟨b, hb, rfl⟩ := Option.map_eq_some_iff.mp ((hlookup i).mp hi)
      rw [(blockStarting_eq_some hnd).mpr ⟨List.mem_of_getElem? hb, rfl⟩]
      exact congrArg (Except.map some) (show index f.blocks i = .ok b by rw [index, hb])

/-- What the passes behind the construction rely on: the index finds the blocks, and the
edges are edges between blocks. -/
structure IsLinked (g : Function) : Prop where
  nodup_starts : (g.blocks.map BasicBlock.startAddress).Nodup
  blockAt : ∀ a, g.blockAt a = .ok (blockStarting g.blocks a)
  nodup_successors : ∀ b ∈ g.blocks, b.successors.Nodup
  successor : ∀ b ∈ g.blocks, ∀ a ∈ b.successors, ∃ c ∈ g.blocks, c.startAddress = a

/-- The blocks are the graph of a stream, and the index finds them. -/
structure IsGraphOf (flat : List LiftedInstruction) (g : Function) : Prop where
  nodup : (flat.map LiftedInstruction.address).Nodup
  cfg : IsCfg flat g.entry g.blocks
  blockAt : ∀ a, g.blockAt a = .ok (blockStarting g.blocks a)

theorem build_ofStream {name : String} {entry : Address} {flat : List LiftedInstruction}
    (hnd : (flat.map LiftedInstruction.address).Nodup) :
    ∃ g, build (.ofStream name entry flat) = .ok g ∧ g.entry = entry ∧ IsGraphOf flat g := by
  have hstream : stream (.ofStream name entry flat) = flat := by
    simp [stream, Function.ofStream, Function.new]
  obtain ⟨bs, hcfg, hbuild⟩ := build_eq_ok (.ofStream name entry flat)
    (by rwa [hstream])
  rw [hstream] at hcfg hbuild
  refine ⟨_, hbuild, ?_, hnd, ?_, ?_⟩
  · split <;> rfl
  · split <;> exact hcfg
  · intro a
    split
    · rfl
    · exact blockAt_rebuildIndex (f := { Function.ofStream name entry flat with blocks := bs })
        (hcfg.nodup_starts hnd) a

namespace IsGraphOf

variable {flat : List LiftedInstruction} {g : Function} (h : IsGraphOf flat g)

include h

theorem nodup_starts : (g.blocks.map BasicBlock.startAddress).Nodup := h.cfg.nodup_starts h.nodup

theorem linked : IsLinked g where
  nodup_starts := h.nodup_starts
  blockAt := h.blockAt
  nodup_successors _ hb := (h.cfg.successors_sorted hb).imp fun hab => UInt64.ne_of_lt hab
  successor _ hb _ ha := h.cfg.exists_mem_of_successor h.nodup hb ha

theorem edgesReversed : Dataflow.EdgesReversed g := h.cfg.connected.mem_predecessors

theorem wellFormed (hflat : IsLifted g.entry flat) {b : BasicBlock} (hb : b ∈ g.blocks)
    {op : Instruction} (hop : op ∈ b.ops) : op.WellFormed := by
  obtain ⟨li, hli, hop⟩ := mem_ops.mp hop
  exact (hflat.shaped li (h.cfg.mem_flat hb hli)).wellFormed op hop

end IsGraphOf

end Cfg

end Decompiler
