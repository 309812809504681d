import Decompiler.Cfg.Correctness

/-! # Runs of the stream and of its graph

The flat machine steps between the instructions of a stream. Its steps are exactly
the steps inside the blocks and along the edges of the graph.
-/

namespace Decompiler.Cfg

variable {bs : List BasicBlock} {flat : List LiftedInstruction} {entry : Address}

/-- One step of the flat machine: to a branch target in the stream, or to the next
instruction when control may fall through. -/
inductive FlatStep (flat : List LiftedInstruction) (li : LiftedInstruction) :
    LiftedInstruction → Prop where
  | taken {target : LiftedInstruction} (mem : li ∈ flat) (targets : li.Targets target.address)
      (target_mem : target ∈ flat) : FlatStep flat li target
  | next {next : LiftedInstruction} (follows : Follows flat li next)
      (falls : li.FallsThrough) : FlatStep flat li next

/-- One step of the graph: between consecutive instructions of a block, or from the
last instruction of a block to the first one of a successor. -/
inductive BlockStep (bs : List BasicBlock) (li : LiftedInstruction) :
    LiftedInstruction → Prop where
  | inside {b : BasicBlock} {next : LiftedInstruction} (mem : b ∈ bs)
      (follows : Follows b.instructions li next) : BlockStep bs li next
  | across {b c : BasicBlock} {first : LiftedInstruction} (mem : b ∈ bs) (succ_mem : c ∈ bs)
      (last : b.lastInstruction = some li) (head : c.instructions.head? = some first)
      (edge : c.startAddress ∈ b.successors) : BlockStep bs li first

namespace IsCfg

section Blocks

variable (h : IsCfg flat entry bs)

include h

theorem exists_last {b : BasicBlock} (hb : b ∈ bs) : ∃ last, b.lastInstruction = some last :=
  ⟨_, List.getLast?_eq_some_getLast (h.split.instructions_ne_nil hb)⟩

theorem mem_flat {b : BasicBlock} (hb : b ∈ bs) {li : LiftedInstruction}
    (hli : li ∈ b.instructions) : li ∈ flat := h.split.mem_flat_iff.mpr ⟨b, hb, hli⟩

theorem exists_head {b : BasicBlock} (hb : b ∈ bs) :
    ∃ first, b.instructions.head? = some first ∧ first.address = b.startAddress :=
  Option.map_eq_some_iff.mp (h.split.head?_instructions hb)

theorem not_hasTerminator_of_follows {b : BasicBlock} (hb : b ∈ bs) {x y : LiftedInstruction}
    (hxy : Follows b.instructions x y) : ¬ x.hasTerminator := fun hx =>
  h.split.not_leader_of_follows hb hxy
    (Or.inr (Or.inr ⟨x, y, h.split.follows_of_mem hb hxy, hx, rfl⟩))

theorem last_of_hasTerminator {b : BasicBlock} (hb : b ∈ bs) {li : LiftedInstruction}
    (hli : li ∈ b.instructions) (ht : li.hasTerminator) : b.lastInstruction = some li := by
  by_contra hne
  obtain ⟨y, hy⟩ := Follows.exists_of_ne_getLast hli hne
  exact h.not_hasTerminator_of_follows hb hy ht

theorem successors_sorted {b : BasicBlock} (hb : b ∈ bs) : b.successors.Pairwise (· < ·) := by
  obtain ⟨i, hi⟩ := List.getElem?_of_mem hb
  rw [h.connected.successors i b hi]
  exact pairwise_lt_blockSuccessors b

end Blocks

variable (hnd : (flat.map LiftedInstruction.address).Nodup) (h : IsCfg flat entry bs)

include hnd h

theorem nodup_starts : (bs.map BasicBlock.startAddress).Nodup :=
  h.split.starts_sublist.nodup hnd

theorem eq_of_start {b c : BasicBlock} (hb : b ∈ bs) (hc : c ∈ bs)
    (hbc : b.startAddress = c.startAddress) : b = c :=
  List.inj_on_of_nodup_map (h.nodup_starts hnd) hb hc hbc

theorem mem_successors {b : BasicBlock} (hb : b ∈ bs) {last : LiftedInstruction}
    (hlast : b.lastInstruction = some last) {a : Address} :
    a ∈ b.successors ↔ (last.Targets a ∧ ∃ c ∈ bs, c.startAddress = a) ∨
      (last.FallsThrough ∧ ∃ c, Follows bs b c ∧ c.startAddress = a) := by
  obtain ⟨i, hi⟩ := List.getElem?_of_mem hb
  rw [h.connected.successors i b hi, mem_blockSuccessors hlast, mem_starts]
  refine or_congr_right (and_congr_right fun _ => ?_)
  constructor
  · intro hn
    obtain ⟨c, hc, rfl⟩ := Option.map_eq_some_iff.mp hn
    exact ⟨c, Follows.getElem? hi hc, rfl⟩
  · rintro ⟨c, hbc, rfl⟩
    obtain ⟨j, hj, hc⟩ := hbc.exists_getElem?
    have hij : i = j := (List.getElem?_inj (by grind) (h.nodup_starts hnd).of_map).mp
      (hi.trans hj.symm)
    subst hij
    simp [startAt, hc]

theorem exists_mem_of_successor {b : BasicBlock} (hb : b ∈ bs) {a : Address}
    (ha : a ∈ b.successors) : ∃ c ∈ bs, c.startAddress = a := by
  obtain ⟨last, hlast⟩ := h.exists_last hb
  rcases (h.mem_successors hnd hb hlast).mp ha with ⟨-, hc⟩ | ⟨-, c, hbc, hc⟩
  · exact hc
  · exact ⟨c, hbc.mem_right, hc⟩

theorem flatStep_of_edge {b c : BasicBlock} (hb : b ∈ bs) (hc : c ∈ bs)
    {last first : LiftedInstruction} (hlast : b.lastInstruction = some last)
    (hfirst : c.instructions.head? = some first) (hedge : c.startAddress ∈ b.successors) :
    FlatStep flat last first := by
  have haddr : first.address = c.startAddress := by
    simpa [hfirst] using h.split.head?_instructions hc
  rcases (h.mem_successors hnd hb hlast).mp hedge with ⟨ht, -⟩ | ⟨hf, d, hbd, hd⟩
  · exact .taken (h.mem_flat hb (List.mem_of_getLast? hlast)) (haddr ▸ ht)
      (h.mem_flat hc (List.mem_of_head? hfirst))
  · obtain rfl := h.eq_of_start hnd hbd.mem_right hc hd
    refine .next ?_ hf
    rw [← h.split.flatten, follows_flatMap_iff fun _ => h.split.instructions_ne_nil]
    exact Or.inr ⟨b, d, hbd, hlast, hfirst⟩

/-- The flat machine and the graph take the same steps. -/
theorem flatStep_iff_blockStep {x y : LiftedInstruction} :
    FlatStep flat x y ↔ BlockStep bs x y := by
  constructor
  · rintro (⟨hx, ht, hy⟩ | ⟨hxy, hf⟩)
    · obtain ⟨b, hb, hxb⟩ := h.split.mem_flat_iff.mp hx
      obtain ⟨c, hc, hyc⟩ := h.split.mem_flat_iff.mp hy
      have hterm : x.hasTerminator := by
        obtain ⟨op, hop, htarget⟩ := ht
        refine ⟨op, hop, ?_⟩
        cases op <;> simp [Instruction.branchTarget?, Instruction.isTerminator] at htarget ⊢
      have hleader : IsLeader flat entry y.address := Or.inr (Or.inl ⟨x, hx, ht⟩)
      obtain ⟨hhead, hstart⟩ := h.split.eq_head_of_leader hc hyc hleader
      have hlast := h.last_of_hasTerminator hb hxb hterm
      exact .across hb hc hlast hhead ((h.mem_successors hnd hb hlast).mpr
        (Or.inl ⟨hstart ▸ ht, c, hc, rfl⟩))
    · rw [← h.split.flatten, follows_flatMap_iff fun _ => h.split.instructions_ne_nil] at hxy
      rcases hxy with ⟨b, hb, hxy⟩ | ⟨b, c, hbc, hlast, hhead⟩
      · exact .inside hb hxy
      · exact .across hbc.mem_left hbc.mem_right hlast hhead
          ((h.mem_successors hnd hbc.mem_left hlast).mpr (Or.inr ⟨hf, c, hbc, rfl⟩))
  · rintro (⟨hb, hxy⟩ | ⟨hb, hc, hlast, hhead, hedge⟩)
    · exact .next (h.split.follows_of_mem hb hxy)
        (Or.inl (h.not_hasTerminator_of_follows hb hxy))
    · exact h.flatStep_of_edge hnd hb hc hlast hhead hedge

theorem flatRun_iff_blockRun {run : List LiftedInstruction} :
    run.IsChain (FlatStep flat) ↔ run.IsChain (BlockStep bs) :=
  ⟨fun hr => hr.imp fun _ _ => (h.flatStep_iff_blockStep hnd).mp,
    fun hr => hr.imp fun _ _ => (h.flatStep_iff_blockStep hnd).mpr⟩

end IsCfg

structure IsControlFlow (flat : List LiftedInstruction) (g : Function) : Prop where
  runs : ∀ run : List LiftedInstruction,
    run.IsChain (FlatStep flat) ↔ run.IsChain (BlockStep g.blocks)
  edges : ∀ b ∈ g.blocks, ∀ a ∈ b.successors, ∃ c ∈ g.blocks, c.startAddress = a ∧
    ∃ last first, b.lastInstruction = some last ∧ c.instructions.head? = some first ∧
      FlatStep flat last first
  reverse_edges : ∀ b ∈ g.blocks, ∀ a ∈ b.predecessors, ∃ c ∈ g.blocks, c.startAddress = a
  symmetric : ∀ b ∈ g.blocks, ∀ c ∈ g.blocks,
    b.startAddress ∈ c.predecessors ↔ c.startAddress ∈ b.successors
  sorted : ∀ b ∈ g.blocks, b.successors.Pairwise (· < ·) ∧ b.predecessors.Pairwise (· < ·)

theorem IsCfg.isControlFlow {g : Function} (h : IsCfg flat entry g.blocks)
    (hnd : (flat.map LiftedInstruction.address).Nodup) : IsControlFlow flat g where
  runs _ := h.flatRun_iff_blockRun hnd
  edges b hb a ha := by
    obtain ⟨c, hc, rfl⟩ := h.exists_mem_of_successor hnd hb ha
    obtain ⟨last, hlast⟩ := h.exists_last hb
    obtain ⟨first, hfirst, -⟩ := h.exists_head hc
    exact ⟨c, hc, rfl, last, first, hlast, hfirst, h.flatStep_of_edge hnd hb hc hlast hfirst ha⟩
  reverse_edges b hb a ha := by
    obtain ⟨c, hc, hca, -⟩ := (h.connected.mem_predecessors b hb a).mp ha
    exact ⟨c, hc, hca⟩
  symmetric b hb c hc := by
    rw [h.connected.mem_predecessors c hc]
    constructor
    · rintro ⟨d, hd, hdb, hmem⟩
      exact h.eq_of_start hnd hd hb hdb ▸ hmem
    · exact fun hmem => ⟨b, hb, rfl, hmem⟩
  sorted b hb := ⟨h.successors_sorted hb, h.connected.predecessors_sorted b hb⟩

/-- The graph is exactly the control flow of the stream. Nothing is assumed of the
number of terminators in an instruction. -/
theorem build_refines_stream (f : Function)
    (hnd : ((stream f).map LiftedInstruction.address).Nodup) :
    ∃ g, build f = .ok g ∧ IsControlFlow (stream f) g := by
  obtain ⟨bs, h, hbuild⟩ := build_eq_ok f hnd
  have hcfg : IsCfg (stream f) f.entry (if stream f = [] then { f with blocks := bs }
      else { f with blocks := bs }.rebuildIndex).blocks := by
    split <;> exact h
  exact ⟨_, hbuild, hcfg.isControlFlow hnd⟩

def whileLoop : Function :=
  { Function.new "loop" 0 with
    blocks := [⟨0, [⟨0, [.cbranch (.constant 1 1) (.absolute 4)]⟩, ⟨2, [.branch (.absolute 0)]⟩,
      ⟨4, [.ret]⟩], [], []⟩] }

theorem build_refines_stream_whileLoop :
    ∃ g, build whileLoop = .ok g ∧ IsControlFlow (stream whileLoop) g :=
  build_refines_stream whileLoop (by decide)

end Decompiler.Cfg
