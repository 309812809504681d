import Decompiler.Cfg.Runs

/-! # Maximal basic blocks

The blocks of a graph are the coarsest partition of the stream that no branch enters or leaves
in the middle of a block.
-/

namespace Decompiler.Cfg

/-- A partition of a stream into basic blocks: control leaves a block at its last instruction
only, and neither the entry nor a branch target lies behind its first one. -/
structure IsPartition (flat : List LiftedInstruction) (entry : Address) (bs : List BasicBlock) :
    Prop where
  flatten : bs.flatMap BasicBlock.instructions = flat
  head : ∀ b ∈ bs, ∃ first, b.instructions.head? = some first ∧ first.address = b.startAddress
  nodup : (bs.map BasicBlock.startAddress).Nodup
  terminator_last : ∀ b ∈ bs, ∀ li ∈ b.instructions.dropLast, ¬ li.hasTerminator
  entry_first : ∀ b ∈ bs, ∀ li ∈ b.instructions.tail, li.address ≠ entry
  target_first : ∀ b ∈ bs, ∀ li ∈ b.instructions.tail, ∀ source ∈ flat, ¬ source.Targets li.address

/-- A reason for a block to start at an address: the entry, a branch target, or the address
behind an instruction that ends a block. -/
def StartsBlock (flat : List LiftedInstruction) (entry a : Address) : Prop :=
  a = entry ∨ (∃ li ∈ flat, li.Targets a) ∨
    ∃ li next, Follows flat li next ∧ li.hasTerminator ∧ next.address = a

variable {flat : List LiftedInstruction} {entry : Address} {bs : List BasicBlock}

theorem mem_tail_iff_follows {α : Type*} {l : List α} {y : α} :
    y ∈ l.tail ↔ ∃ x, Follows l x y := by
  constructor
  · intro hy
    cases l with
    | nil => cases hy
    | cons a l =>
      obtain ⟨s, t, rfl⟩ := List.append_of_mem hy
      rcases List.eq_nil_or_concat' s with rfl | ⟨init, x, rfl⟩
      · exact ⟨a, [], t, rfl⟩
      · exact ⟨x, a :: init, t, by simp⟩
  · rintro ⟨x, h⟩
    exact h.mem_tail

section Graph

variable (h : IsCfg flat entry bs) (hnd : (flat.map LiftedInstruction.address).Nodup)

include h

theorem not_leader_of_mem_tail {b : BasicBlock} (hb : b ∈ bs) {li : LiftedInstruction}
    (hli : li ∈ b.instructions.tail) : ¬ IsLeader flat entry li.address := by
  obtain ⟨x, hx⟩ := mem_tail_iff_follows.mp hli
  exact h.split.not_leader_of_follows hb hx

include hnd

theorem IsCfg.isPartition : IsPartition flat entry bs := by
  constructor
  case flatten => exact h.split.flatten
  case head => exact fun b hb => h.exists_head hb
  case nodup => exact h.nodup_starts hnd
  case terminator_last =>
    intro b hb li hli hterm
    obtain ⟨y, hy⟩ := Follows.exists_of_mem_dropLast hli
    exact h.not_hasTerminator_of_follows hb hy hterm
  case entry_first =>
    intro b hb li hli hentry
    exact not_leader_of_mem_tail h hb hli (Or.inl (Or.inl hentry))
  case target_first =>
    intro b hb li hli source hsource htarget
    exact not_leader_of_mem_tail h hb hli (Or.inr (Or.inl ⟨source, hsource, htarget⟩))

theorem IsCfg.startsBlock {b : BasicBlock} (hb : b ∈ bs.tail) :
    StartsBlock flat entry b.startAddress := by
  have hmem := List.mem_of_mem_tail hb
  have hstart : IsLeader flat entry b.startAddress :=
    (h.split.start b hmem).elim id fun hfirst => Or.inl (Or.inr hfirst)
  rcases hstart with (hentry | hfirst) | hrest
  · exact Or.inl hentry
  · cases bs with
    | nil => cases hb
    | cons first rest =>
      have hhead := h.split.head?_instructions (b := first) List.mem_cons_self
      rw [← h.split.flatten, head?_flatMap_of_ne_nil
        (h.split.instructions_ne_nil List.mem_cons_self), hhead] at hfirst
      have hnodup := h.nodup_starts hnd
      rw [List.map_cons, List.nodup_cons, Option.some.inj hfirst] at hnodup
      exact absurd (List.mem_map_of_mem hb) hnodup.1
  · exact Or.inr hrest

end Graph

/-- Where a block of one partition has a reason to start, a block of every other one starts. -/
theorem IsPartition.exists_start (h : IsPartition flat entry bs)
    (hnd : (flat.map LiftedInstruction.address).Nodup) {li : LiftedInstruction} (hli : li ∈ flat)
    (hleader : IsLeader flat entry li.address) :
    ∃ b ∈ bs, b.startAddress = li.address := by
  have hne : ∀ b ∈ bs, b.instructions ≠ [] := by
    intro b hb hnil
    obtain ⟨first, hfirst, -⟩ := h.head b hb
    rw [hnil] at hfirst
    cases hfirst
  -- either `li` heads its block, or it comes behind another instruction of the block
  have hcase : (∃ b ∈ bs, b.startAddress = li.address) ∨
      ∃ b ∈ bs, li ∈ b.instructions.tail := by
    rw [← h.flatten] at hli
    obtain ⟨b, hb, hmem⟩ := List.mem_flatMap.mp hli
    obtain ⟨first, hfirst, haddr⟩ := h.head b hb
    rw [List.eq_cons_of_mem_head? hfirst] at hmem
    rcases List.mem_cons.mp hmem with rfl | htail
    · exact Or.inl ⟨b, hb, haddr.symm⟩
    · exact Or.inr ⟨b, hb, htail⟩
  rcases hcase with hstart | ⟨b, hb, htail⟩
  · exact hstart
  rcases hleader with (hentry | hfirst) | ⟨source, hsource, htarget⟩ | ⟨x, y, hxy, hx, hy⟩
  · exact absurd hentry (h.entry_first b hb li htail)
  · cases bs with
    | nil => cases hb
    | cons c cs =>
      obtain ⟨first, hc, haddr⟩ := h.head c List.mem_cons_self
      rw [← h.flatten, head?_flatMap_of_ne_nil (hne c List.mem_cons_self), hc] at hfirst
      exact ⟨c, List.mem_cons_self, by rw [← haddr]; exact Option.some.inj hfirst⟩
  · exact absurd htarget (h.target_first b hb li htail source hsource)
  · obtain rfl := List.inj_on_of_nodup_map hnd hxy.mem_right hli hy
    rw [← h.flatten, follows_flatMap_iff hne] at hxy
    rcases hxy with ⟨c, hc, hxy⟩ | ⟨c, d, hcd, -, hhead⟩
    · have hlast : x ∈ c.instructions.dropLast := by
        obtain ⟨s, t, hst⟩ := hxy
        rw [← hst]
        simp
      exact absurd hx (h.terminator_last c hc x hlast)
    · obtain ⟨first, hfirst, haddr⟩ := h.head d hcd.mem_right
      obtain rfl := Option.some.inj (hfirst.symm.trans hhead)
      exact ⟨d, hcd.mem_right, haddr.symm⟩

/-- The construction partitions every stream with distinct addresses into basic blocks, and its
partition is the coarsest one: each block but the first has a reason to start where it does, and
every other partition into basic blocks has a block that starts there. -/
theorem build_maximal (f : Function) (hnd : ((stream f).map LiftedInstruction.address).Nodup)
    (hne : stream f ≠ []) : ∃ g, build f = .ok g ∧ IsPartition (stream f) f.entry g.blocks ∧
      (∀ b ∈ g.blocks.tail, StartsBlock (stream f) f.entry b.startAddress) ∧
      ∀ bs, IsPartition (stream f) f.entry bs →
        ∀ b ∈ g.blocks, ∃ c ∈ bs, c.startAddress = b.startAddress := by
  obtain ⟨bs, hcfg, hbuild⟩ := build_eq_ok f hnd
  rw [if_neg hne] at hbuild
  refine ⟨_, hbuild, hcfg.isPartition hnd, fun b hb => hcfg.startsBlock hnd hb, ?_⟩
  intro cs hcs b hb
  obtain ⟨first, hfirst, haddr⟩ := hcfg.exists_head hb
  have hleader : IsLeader (stream f) f.entry first.address := by
    rw [haddr]
    exact (hcfg.split.start b hb).elim id fun hhead => Or.inl (Or.inr hhead)
  rw [← haddr]
  exact hcs.exists_start hnd (hcfg.mem_flat hb (List.mem_of_head? hfirst)) hleader

def jumpOver : Function :=
  { Function.new "jump_over" 0 with
    blocks := [⟨0, [⟨0, [.branch (.absolute 2)]⟩, ⟨1, [.nop]⟩, ⟨2, [.ret]⟩], [], []⟩] }

theorem build_maximal_jumpOver : ∃ g, build jumpOver = .ok g ∧
    IsPartition (stream jumpOver) jumpOver.entry g.blocks ∧
      (∀ b ∈ g.blocks.tail, StartsBlock (stream jumpOver) jumpOver.entry b.startAddress) ∧
      ∀ bs, IsPartition (stream jumpOver) jumpOver.entry bs →
        ∀ b ∈ g.blocks, ∃ c ∈ bs, c.startAddress = b.startAddress :=
  build_maximal jumpOver (by decide) (by decide)

end Decompiler.Cfg
