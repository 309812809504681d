import Decompiler.Structurer.Tree

/-! # How blocks end

In the streams that the decode loop yields a block has at most one terminator. The
scan of the walker finds it, and the successors of the block are what it names.
-/

namespace Decompiler

/-- A stream as the decode loop yields it: addresses increase from the entry on, and
an instruction has at most one terminator. -/
structure IsYielded (entry : Address) (flat : List LiftedInstruction) : Prop where
  sorted : (flat.map LiftedInstruction.address).Pairwise (· < ·)
  head : ∀ li ∈ flat.head?, li.address = entry
  one_terminator : ∀ li ∈ flat, (li.ops.filter Instruction.isTerminator).length ≤ 1
  absolute : ∀ li ∈ flat, ∀ op ∈ li.ops, op.isAbsolute

theorem IsYielded.nodup {entry : Address} {flat : List LiftedInstruction}
    (h : IsYielded entry flat) : (flat.map LiftedInstruction.address).Nodup :=
  h.sorted.imp fun hab => UInt64.ne_of_lt hab

theorem IsLifted.isYielded {entry : Address} {flat : List LiftedInstruction}
    (h : IsLifted entry flat) : IsYielded entry flat where
  sorted := h.sorted
  head := h.head
  one_terminator li hli := by
    have hinit : li.ops.dropLast.filter Instruction.isTerminator = [] := by
      simpa using (h.shaped li hli).terminator_last
    cases hl : li.ops.getLast? with
    | none => simp [List.getLast?_eq_none_iff.mp hl]
    | some op =>
      rw [← List.dropLast_append_getLast? op hl, List.filter_append, hinit]
      exact (List.length_filter_le _ _)
  absolute li hli := (h.shaped li hli).absolute

namespace BasicBlock

def terminator? (b : BasicBlock) : Option Instruction := b.ops.find? Instruction.isTerminator

def plainOps (b : BasicBlock) : List Instruction := b.ops.filter fun op => !op.isTerminator

end BasicBlock

namespace Structurer

open Cfg

section Scan

theorem Scan.foldl_step (ops : List Instruction) (s : Scan) :
    ops.foldl Scan.step s = (ops.filter Instruction.isTerminator).foldl Scan.step
      { s with ops := s.ops ++ ops.filter fun op => !op.isTerminator } := by
  induction ops generalizing s with
  | nil => simp
  | cons op ops ih =>
    rw [List.foldl_cons, ih]
    cases op with
    | branch target => cases target <;> rfl
    | cbranch c target => cases target <;> rfl
    | ret => rfl
    | _ => exact congrArg (fun l => (ops.filter Instruction.isTerminator).foldl Scan.step
        { s with ops := l }) (List.append_assoc s.ops [_] _)

theorem Scan.ofBlock_eq (b : BasicBlock) : Scan.ofBlock b =
    (b.ops.filter Instruction.isTerminator).foldl Scan.step
      { Scan.empty with ops := b.plainOps } := by
  have hfold : Scan.ofBlock b = b.ops.foldl Scan.step Scan.empty := by
    rw [Scan.ofBlock, BasicBlock.ops, List.foldl_flatMap]
  rw [hfold, Scan.foldl_step]
  rfl

theorem Scan.ops_ofBlock (b : BasicBlock) : (Scan.ofBlock b).ops = b.plainOps := by
  have hops : ∀ (l : List Instruction) (s : Scan), (∀ op ∈ l, op.isTerminator) →
      (l.foldl Scan.step s).ops = s.ops := by
    intro l
    induction l with
    | nil => exact fun _ _ => rfl
    | cons op l ih =>
      intro s h
      have hop := h op (by simp)
      rw [List.foldl_cons, ih _ fun o ho => h o (List.mem_cons_of_mem _ ho)]
      cases op with
      | branch target => cases target <;> rfl
      | cbranch c target => cases target <;> rfl
      | ret => rfl
      | _ => cases hop
  rw [Scan.ofBlock_eq, hops]
  simp

end Scan

/-- How a block ends, in terms of its terminator and of the block behind it. -/
inductive HasExit (bs : List BasicBlock) (b : BasicBlock) : Exit → Prop
  | cond {c : Varnode} {t f : Address} (term : b.terminator? = some (.cbranch c (.absolute t)))
    (falls : (f ≠ t ∧ nextAfter bs b.startAddress = some f) ∨
      (f = 0 ∧ ∀ a, nextAfter bs b.startAddress = some a → a = t)) :
    HasExit bs b (.cond c t f)
  | jump {t : Address} (term : b.terminator? = some (.branch (.absolute t))) :
    HasExit bs b (.jump t)
  | ret (term : b.terminator? = some .ret) : HasExit bs b .ret
  | next {a : Address} (term : b.terminator? = none)
    (falls : nextAfter bs b.startAddress = some a) : HasExit bs b (.next a)
  | none (term : b.terminator? = none) (falls : nextAfter bs b.startAddress = none) :
    HasExit bs b .none

section Blocks

variable {flat : List LiftedInstruction} {g : Function} (hg : IsGraphOf flat g)
  (hflat : IsYielded g.entry flat) {b : BasicBlock} (hb : b ∈ g.blocks)

include hg hflat hb

theorem filter_terminators :
    b.ops.filter Instruction.isTerminator = b.terminator?.toList := by
  obtain ⟨last, hlast⟩ := hg.cfg.exists_last hb
  obtain ⟨init, hinit⟩ := List.getLast?_eq_some_iff.mp hlast
  have hnone : (init.flatMap LiftedInstruction.ops).filter Instruction.isTerminator = [] := by
    rw [List.filter_eq_nil_iff]
    intro op hop ht
    obtain ⟨li, hli, hop⟩ := List.mem_flatMap.mp hop
    obtain ⟨y, hy⟩ := Follows.exists_of_mem_dropLast (l := b.instructions)
      (by rwa [hinit, List.dropLast_concat])
    exact hg.cfg.not_hasTerminator_of_follows hb hy ⟨op, hop, ht⟩
  have hone := hflat.one_terminator last (hg.cfg.mem_flat hb (List.mem_of_getLast? hlast))
  have hfilter : b.ops.filter Instruction.isTerminator =
      last.ops.filter Instruction.isTerminator := by
    rw [BasicBlock.ops, hinit, List.flatMap_append, List.filter_append, hnone]
    simp
  rw [BasicBlock.terminator?, ← List.head?_filter, hfilter]
  revert hone
  generalize last.ops.filter Instruction.isTerminator = terminators
  intro hone
  cases terminators with
  | nil => rfl
  | cons op terminators =>
    obtain rfl : terminators = [] := by simpa using hone
    rfl

theorem terminator?_eq_some_iff {op : Instruction} :
    b.terminator? = some op ↔ op ∈ b.ops ∧ op.isTerminator := by
  have hfilter := filter_terminators hg hflat hb
  rw [← List.mem_filter, hfilter, Option.mem_toList]

theorem mem_successors_iff {a : Address} : a ∈ b.successors ↔
    ((∃ op, b.terminator? = some op ∧ op.branchTarget? = some a) ∧
      ∃ c ∈ g.blocks, c.startAddress = a) ∨
    ((b.terminator? = none ∨ ∃ op, b.terminator? = some op ∧ op.isCbranch) ∧
      nextAfter g.blocks b.startAddress = some a) := by
  obtain ⟨last, hlast⟩ := hg.cfg.exists_last hb
  have hmem := List.mem_of_getLast? hlast
  have hin : ∀ op, (op ∈ last.ops ∧ op.isTerminator) ↔ b.terminator? = some op := by
    intro op
    rw [terminator?_eq_some_iff hg hflat hb]
    constructor
    · rintro ⟨hop, ht⟩
      exact ⟨mem_ops.mpr ⟨last, hmem, hop⟩, ht⟩
    · rintro ⟨hop, ht⟩
      obtain ⟨li, hli, hop⟩ := mem_ops.mp hop
      have heq := hg.cfg.last_of_hasTerminator hb hli ⟨op, hop, ht⟩
      obtain rfl := Option.some.inj (heq.symm.trans hlast)
      exact ⟨hop, ht⟩
  have htargets : last.Targets a ↔ ∃ op, b.terminator? = some op ∧ op.branchTarget? = some a := by
    constructor
    · rintro ⟨op, hop, ht⟩
      refine ⟨op, (hin op).mp ⟨hop, ?_⟩, ht⟩
      cases op <;> first | rfl | cases ht
    · rintro ⟨op, hop, ht⟩
      exact ⟨op, ((hin op).mpr hop).1, ht⟩
  have hfalls : last.FallsThrough ↔
      b.terminator? = none ∨ ∃ op, b.terminator? = some op ∧ op.isCbranch := by
    refine or_congr ?_ ?_
    · rw [LiftedInstruction.hasTerminator, Option.eq_none_iff_forall_ne_some]
      constructor
      · rintro h op hop
        obtain ⟨hop, ht⟩ := (hin op).mpr hop
        exact h ⟨op, hop, ht⟩
      · rintro h ⟨op, hop, ht⟩
        exact h op ((hin op).mp ⟨hop, ht⟩)
    · constructor
      · rintro ⟨op, hop, hc⟩
        refine ⟨op, (hin op).mp ⟨hop, ?_⟩, hc⟩
        cases op <;> first | rfl | cases hc
      · rintro ⟨op, hop, hc⟩
        exact ⟨op, ((hin op).mpr hop).1, hc⟩
  rw [hg.cfg.mem_successors hg.nodup hb hlast, htargets, hfalls,
    nextAfter_eq_some hg.nodup_starts hb]

theorem hasExit : HasExit g.blocks b (exitOf b) := by
  have hfilter := filter_terminators hg hflat hb
  have hsucc := fun a => mem_successors_iff hg hflat hb (a := a)
  have hscan := Scan.ofBlock_eq b
  rw [hfilter] at hscan
  cases hterm : b.terminator? with
  | none =>
    rw [hterm] at hscan
    simp only [hterm, Option.toList_none, List.foldl_nil, true_or, true_and, reduceCtorEq,
      false_and, exists_false, false_or] at hscan hsucc
    rw [exitOf, hscan]
    simp only [Scan.empty]
    cases hhead : b.successors.head? with
    | none =>
      refine .none hterm ?_
      rw [Option.eq_none_iff_forall_ne_some]
      intro a ha
      rw [← hsucc a, List.head?_eq_none_iff.mp hhead] at ha
      cases ha
    | some n => exact .next hterm ((hsucc n).mp (List.mem_of_head? hhead))
  | some op =>
    obtain ⟨hop, ht⟩ := (terminator?_eq_some_iff hg hflat hb).mp hterm
    obtain ⟨li, hli, hmem⟩ := mem_ops.mp hop
    have habs := hflat.absolute li (hg.cfg.mem_flat hb hli) op hmem
    rw [hterm, Option.toList_some, List.foldl_cons, List.foldl_nil] at hscan
    cases op with
    | branch target =>
      cases target with
      | indirect => cases habs
      | absolute t =>
        rw [exitOf, hscan]
        exact .jump hterm
    | cbranch c target =>
      cases target with
      | indirect => cases habs
      | absolute t =>
        have hexit : exitOf b = .cond c t ((b.successors.find? (· ≠ t)).getD 0) := by
          rw [exitOf, hscan]
          rfl
        rw [hexit]
        simp only [hterm, Option.some.injEq, exists_eq_left', Instruction.branchTarget?,
          BranchTarget.address?, reduceCtorEq, Instruction.isCbranch, false_or, true_and] at hsucc
        refine .cond hterm ?_
        cases hfind : b.successors.find? (· ≠ t) with
        | none =>
          rw [Option.getD_none]
          refine Or.inr ⟨rfl, fun a ha => ?_⟩
          have hall := List.find?_eq_none.mp hfind a ((hsucc a).mpr (Or.inr ha))
          simpa using hall
        | some f =>
          rw [Option.getD_some]
          have hne : f ≠ t := by simpa using List.find?_some hfind
          refine Or.inl ⟨hne, ?_⟩
          rcases (hsucc f).mp (List.mem_of_find?_eq_some hfind) with ⟨rfl, -⟩ | hnext
          · exact absurd rfl hne
          · exact hnext
    | ret =>
      rw [exitOf, hscan]
      exact .ret hterm
    | _ => cases ht

end Blocks

end Structurer

end Decompiler
