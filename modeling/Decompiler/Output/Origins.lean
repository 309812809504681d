import Decompiler.Output.Pieces
import Decompiler.Structurer.Emission

/-! # The operations behind the text

Whatever the body of a structured function assigns or reads is assigned or read by an
operation of one of its blocks: the code of the tree is that of the blocks that the walk
takes, and its conditions are those of their branches.
-/

namespace Decompiler

namespace Structurer

theorem Scan.termCond_foldl_step {ops : List Instruction} {s : Scan} {c : Varnode}
    (h : (ops.foldl Scan.step s).termCond = some c) :
    s.termCond = some c ∨ ∃ target, .cbranch c target ∈ ops := by
  induction ops generalizing s with
  | nil => exact .inl h
  | cons op ops ih =>
    rcases ih h with h | ⟨target, h⟩
    · cases op with
      | branch target => cases target <;> exact .inl h
      | cbranch condition target =>
        obtain rfl : condition = c := by
          cases target <;> exact Option.some.inj h
        exact .inr ⟨target, List.mem_cons_self⟩
      | _ => exact .inl h
    · exact .inr ⟨target, List.mem_cons_of_mem op h⟩

theorem exists_cbranch_of_exitOf {b : BasicBlock} {c : Varnode} {t f : Address}
    (h : exitOf b = .cond c t f) : ∃ target, .cbranch c target ∈ b.ops := by
  have hscan : (Scan.ofBlock b).termCond = some c := by
    unfold exitOf at h
    dsimp only at h
    split at h
    case h_1 cond hcond =>
      obtain ⟨rfl, -, -⟩ := Exit.cond.inj h
      exact hcond
    case h_2 =>
      split at h
      · cases h
      · split at h
        · cases h
        · split at h <;> cases h
  rw [Scan.ofBlock_eq] at hscan
  rcases Scan.termCond_foldl_step hscan with h | ⟨target, h⟩
  · cases h
  · exact ⟨target, (List.mem_filter.mp h).1⟩

@[simp] theorem test_not_mem_headLines (c : Varnode) (b : BasicBlock) : .test c ∉ headLines b := by
  rw [headLines, codeLines]
  split <;> simp

theorem Explores.exists_exit_of_test {bs : List BasicBlock} {backEdges : Finset (Address × Address)}
    {curr : Address} {stop : Option Address} {seen : Finset Address} {r : Region}
    (h : Explores bs backEdges curr stop seen r) {c : Varnode} (hc : .test c ∈ r.lines) :
    ∃ b ∈ r.taken, ∃ t f, exitOf b = .cond c t f := by
  induction h with
  | skip | missing => cases hc
  | loop takes exit _ _ ih | doWhile takes exit _ _ _ ih =>
    simp only [Region.lines, List.mem_append, List.mem_cons, test_not_mem_headLines,
      Line.test.injEq, reduceCtorEq, List.not_mem_nil, false_or, or_false] at hc
    rcases hc with rfl | hc
    · exact ⟨_, List.mem_cons_self, _, _, exit⟩
    · obtain ⟨b, hb, hexit⟩ := ih hc
      exact ⟨b, List.mem_cons_of_mem _ hb, hexit⟩
  | fork takes exit _ _ _ _ ihb ihn =>
    simp only [Region.lines, List.mem_append, List.mem_cons, test_not_mem_headLines,
      Line.test.injEq, reduceCtorEq, false_or] at hc
    rcases hc with rfl | hc | hc
    · exact ⟨_, List.mem_cons_self, _, _, exit⟩
    · obtain ⟨b, hb, hexit⟩ := ihb hc
      exact ⟨b, List.mem_cons_of_mem _ (List.mem_append_left _ hb), hexit⟩
    · obtain ⟨b, hb, hexit⟩ := ihn hc
      exact ⟨b, List.mem_cons_of_mem _ (List.mem_append_right _ hb), hexit⟩
  | go _ _ _ _ ih =>
    simp only [Region.lines, List.mem_append, test_not_mem_headLines, false_or] at hc
    obtain ⟨b, hb, hexit⟩ := ih hc
    exact ⟨b, List.mem_cons_of_mem _ hb, hexit⟩
  | jump | ret | stuck => simp [Region.lines] at hc

end Structurer

namespace Output

open Structurer

variable {g : Function} (types : Finmap fun _ : Location => DataType)

/-- A line of a structured function shows operations of its blocks. -/
theorem exists_op_of_line {backEdges : Finset (Address × Address)} {r : Region}
    (h : Explores g.blocks backEdges g.entry none ∅ r) {line : Line} (hline : line ∈ r.lines)
    {p : Piece} (hp : p ∈ linePieces types line) :
    ∃ op ∈ g.blocks.flatMap BasicBlock.ops,
      (∀ v, p = .target v → op.opDest = some v) ∧ ∀ v, p = .operand v → v ∈ op.operands := by
  cases line with
  | code a ops =>
    obtain ⟨b, hb, -, rfl⟩ := Region.exists_taken_of_code hline
    obtain ⟨op, hop, hp⟩ := List.mem_flatMap.mp hp
    refine ⟨op, List.mem_flatMap.mpr ⟨b, h.mem_of_mem_taken hb, (List.mem_filter.mp hop).1⟩, ?_, ?_⟩
    · rintro v rfl
      exact opDest_of_target types hp
    · rintro v rfl
      exact mem_operands_of_operand types hp
  | test c =>
    obtain ⟨b, hb, t, f, hexit⟩ := h.exists_exit_of_test hline
    obtain ⟨target, hop⟩ := exists_cbranch_of_exitOf hexit
    obtain rfl := List.mem_singleton.mp hp
    refine ⟨_, List.mem_flatMap.mpr ⟨b, h.mem_of_mem_taken hb, hop⟩, ?_, ?_⟩
    · intro v hv
      cases hv
    · intro v hv
      obtain rfl := Piece.operand.inj hv
      exact List.mem_singleton_self _
  | orElse | close | goto | label | ret => cases hp

end Output

end Decompiler
