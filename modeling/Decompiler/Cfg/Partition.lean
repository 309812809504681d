import Decompiler.Cfg.Leaders
import Decompiler.Library.Fallible

/-! # Splitting at the leaders

The split never fails. Its blocks partition the stream: each starts at its own
first instruction, and an instruction inside a block is not a leader.
-/

namespace Decompiler.Cfg

/-- A block that starts at its first instruction and has no leader after it. -/
def IsPiece (leader : Address → Prop) (b : BasicBlock) : Prop :=
  ∃ first rest, b.instructions = first :: rest ∧ first.address = b.startAddress ∧
    ∀ li ∈ rest, ¬ leader li.address

structure IsSplit (leader : Address → Prop) (flat : List LiftedInstruction)
    (bs : List BasicBlock) : Prop where
  flatten : bs.flatMap BasicBlock.instructions = flat
  piece : ∀ b ∈ bs, IsPiece leader b
  start : ∀ b ∈ bs, leader b.startAddress ∨
    flat.head?.map LiftedInstruction.address = some b.startAddress

variable {leader : Address → Prop} {flat : List LiftedInstruction} {bs : List BasicBlock}

theorem pushLast_concat (bs : List BasicBlock) (b : BasicBlock) (li : LiftedInstruction) :
    pushLast (bs ++ [b]) li = .ok (bs ++ [b.push li.address li.ops]) := by
  simp [pushLast]

theorem IsSplit.snoc_new (h : IsSplit leader flat bs) {li : LiftedInstruction}
    (hli : leader li.address ∨ bs = []) :
    IsSplit leader (flat ++ [li]) (bs ++ [⟨li.address, [li], [], []⟩]) where
  flatten := by simp [h.flatten]
  piece b hb := by
    rcases List.mem_append.mp hb with hb | hb
    · exact h.piece b hb
    · obtain rfl := List.mem_singleton.mp hb
      exact ⟨li, [], rfl, rfl, by simp⟩
  start b hb := by
    rcases List.mem_append.mp hb with hb | hb
    · refine (h.start b hb).imp_right fun hs => ?_
      cases flat with
      | nil => simp at hs
      | cons x l => exact hs
    · obtain rfl := List.mem_singleton.mp hb
      refine hli.imp_right fun hbs => ?_
      have hflat : flat = [] := by rw [← h.flatten, hbs]; rfl
      simp [hflat]

theorem IsSplit.snoc_push {b : BasicBlock} (h : IsSplit leader flat (bs ++ [b]))
    {li : LiftedInstruction} (hli : ¬ leader li.address) :
    IsSplit leader (flat ++ [li]) (bs ++ [b.push li.address li.ops]) where
  flatten := by rw [← h.flatten]; simp [BasicBlock.push]
  piece c hc := by
    rcases List.mem_append.mp hc with hc | hc
    · exact h.piece c (List.mem_append_left _ hc)
    · obtain rfl := List.mem_singleton.mp hc
      obtain ⟨first, rest, hb, hfirst, hrest⟩ := h.piece b (by simp)
      refine ⟨first, rest ++ [li], by simp [BasicBlock.push, hb], hfirst, fun x hx => ?_⟩
      rcases List.mem_append.mp hx with hx | hx
      · exact hrest x hx
      · obtain rfl := List.mem_singleton.mp hx
        exact hli
  start c hc := by
    have hcase : leader c.startAddress ∨
        flat.head?.map LiftedInstruction.address = some c.startAddress := by
      rcases List.mem_append.mp hc with hc | hc
      · exact h.start c (List.mem_append_left _ hc)
      · obtain rfl := List.mem_singleton.mp hc
        exact h.start b (by simp)
    refine hcase.imp_right fun hs => ?_
    cases flat with
    | nil => simp at hs
    | cons x l => exact hs

theorem splitAtLeaders_eq_ok (flat : List LiftedInstruction) (leaders : Finset Address) :
    ∃ bs, splitAtLeaders flat leaders = .ok bs ∧ IsSplit (· ∈ leaders) flat bs := by
  refine Fallible.foldlM_invariant (IsSplit (· ∈ leaders)) ⟨rfl, by simp, by simp⟩ ?_
  intro p li bs _ h
  unfold splitStep
  split
  case isTrue hli => exact ⟨_, pushLast_concat _ _ _, h.snoc_new hli⟩
  case isFalse hli =>
    obtain ⟨hmem, hne⟩ := not_or.mp hli
    obtain ⟨init, last, rfl⟩ := (List.eq_nil_or_concat' bs).resolve_left hne
    exact ⟨_, pushLast_concat _ _ _, h.snoc_push hmem⟩

namespace IsSplit

theorem instructions_ne_nil (h : IsSplit leader flat bs) {b : BasicBlock} (hb : b ∈ bs) :
    b.instructions ≠ [] := by
  obtain ⟨first, rest, hi, _⟩ := h.piece b hb
  simp [hi]

theorem head?_instructions (h : IsSplit leader flat bs) {b : BasicBlock} (hb : b ∈ bs) :
    b.instructions.head?.map LiftedInstruction.address = some b.startAddress := by
  obtain ⟨first, rest, hi, hf, _⟩ := h.piece b hb
  simp [hi, hf]

theorem starts_sublist (h : IsSplit leader flat bs) :
    (bs.map BasicBlock.startAddress).Sublist (flat.map LiftedInstruction.address) := by
  rw [← h.flatten]
  have hp := h.piece
  clear h
  induction bs with
  | nil => simp
  | cons b bs ih =>
    obtain ⟨first, rest, hi, hf, _⟩ := hp b (by simp)
    have ih := ih fun c hc => hp c (List.mem_cons_of_mem _ hc)
    simp only [List.map_cons, List.flatMap_cons, hi, List.cons_append, hf, List.map_append]
    exact (ih.trans (List.sublist_append_right _ _)).cons_cons _

theorem mem_flat_iff (h : IsSplit leader flat bs) {li : LiftedInstruction} :
    li ∈ flat ↔ ∃ b ∈ bs, li ∈ b.instructions := by
  rw [← h.flatten, List.mem_flatMap]

theorem follows_of_mem (h : IsSplit leader flat bs) {b : BasicBlock} (hb : b ∈ bs)
    {x y : LiftedInstruction} (hxy : Follows b.instructions x y) : Follows flat x y := by
  rw [← h.flatten, follows_flatMap_iff fun c hc => h.instructions_ne_nil hc]
  exact Or.inl ⟨b, hb, hxy⟩

theorem not_leader_of_follows (h : IsSplit leader flat bs) {b : BasicBlock} (hb : b ∈ bs)
    {x y : LiftedInstruction} (hxy : Follows b.instructions x y) : ¬ leader y.address := by
  obtain ⟨first, rest, hi, _, hrest⟩ := h.piece b hb
  exact hrest y (by simpa [hi] using hxy.mem_tail)

/-- A leader of the stream heads its block. -/
theorem eq_head_of_leader (h : IsSplit leader flat bs) {b : BasicBlock} (hb : b ∈ bs)
    {li : LiftedInstruction} (hli : li ∈ b.instructions) (hl : leader li.address) :
    b.instructions.head? = some li ∧ b.startAddress = li.address := by
  obtain ⟨first, rest, hi, hf, hrest⟩ := h.piece b hb
  rw [hi] at hli ⊢
  rcases List.mem_cons.mp hli with rfl | hm
  · exact ⟨rfl, hf.symm⟩
  · exact absurd hl (hrest li hm)

end IsSplit

end Decompiler.Cfg
