import Decompiler.Structurer.Walk

/-! # The text of a syntax tree

A syntax tree read line by line, as the printer puts it out, and the lines of a region
tree: every block that the walk takes has one label, with its operations behind it.
-/

namespace Decompiler

/-- A node of a syntax tree in the order of the text. -/
inductive Line where
  | code (address : Address) (ops : List Instruction)
  | test (cond : Varnode)
  | orElse
  | close
  | goto (target : Address)
  | label (address : Address)
  | ret
  deriving DecidableEq

namespace Line

def label? : Line → Option Address
  | label a => some a
  | _ => none

def code? : Line → Option (Address × List Instruction)
  | code a ops => some (a, ops)
  | _ => none

def targets : Line → List Address
  | goto a => [a]
  | code _ ops => ops.filterMap Instruction.branchTarget?
  | _ => []

theorem count_label (lines : List Line) (a : Address) :
    lines.count (.label a) = (lines.filterMap label?).count a := by
  induction lines with
  | nil => rfl
  | cons line lines ih =>
    rw [List.count_cons, ih]
    cases line with
    | label b => simp [label?, List.count_cons]
    | _ => rfl

theorem mem_filterMap_label? {lines : List Line} {a : Address} :
    a ∈ lines.filterMap label? ↔ .label a ∈ lines := by
  rw [← List.count_pos_iff, ← count_label, List.count_pos_iff]

theorem mem_filterMap_code? {lines : List Line} {a : Address} {ops : List Instruction} :
    (a, ops) ∈ lines.filterMap code? ↔ .code a ops ∈ lines := by
  rw [List.mem_filterMap]
  constructor
  · rintro ⟨line, hline, h⟩
    cases line with
    | code b ops' =>
      obtain ⟨rfl, rfl⟩ := Prod.mk.inj (Option.some.inj h)
      exact hline
    | _ => cases h
  · exact fun h => ⟨_, h, rfl⟩

end Line

mutual

def HighLevelAst.lines : HighLevelAst → List Line
  | .block a ops => [.code a ops]
  | .seq nodes => nodeLines nodes
  | .ifElse cond thenBody elseBody =>
    .test cond :: (thenBody.lines ++ elseLines elseBody ++ [.close])
  | .whileDo cond body => .test cond :: (body.lines ++ [.close])
  | .goto target => [.goto target]
  | .label a => [.label a]
  | .ret => [.ret]

def nodeLines : List HighLevelAst → List Line
  | [] => []
  | node :: nodes => node.lines ++ nodeLines nodes

def elseLines : Option HighLevelAst → List Line
  | none => []
  | some elseBody => .orElse :: elseBody.lines

end

theorem nodeLines_append (l m : List HighLevelAst) :
    nodeLines (l ++ m) = nodeLines l ++ nodeLines m := by
  induction l with
  | nil => rfl
  | cons node l ih => rw [List.cons_append, nodeLines, nodeLines, ih, List.append_assoc]

namespace Structurer

open Cfg

theorem lines_wrapNodes (nodes : List HighLevelAst) : (wrapNodes nodes).lines = nodeLines nodes := by
  match nodes with
  | [] => rfl
  | [node] => exact (List.append_nil _).symm
  | _ :: _ :: _ => rfl

def codeLines (b : BasicBlock) : List Line :=
  if b.plainOps = [] then [] else [.code b.startAddress b.plainOps]

def headLines (b : BasicBlock) : List Line := .label b.startAddress :: codeLines b

theorem nodeLines_headNodes (b : BasicBlock) : nodeLines (headNodes b) = headLines b := by
  rw [headNodes, blockNodes, Scan.ops_ofBlock, headLines, codeLines]
  split <;> rfl

namespace Region

def lines : Region → List Line
  | skip | missing _ => []
  | loop b cond t _ next => headLines b ++ .test cond :: .goto t :: .close :: next.lines
  | doWhile b cond _ f body => headLines b ++ .test cond :: (body.lines ++ [.close, .goto f])
  | fork b cond _ _ body next => headLines b ++ .test cond :: (body.lines ++ .close :: next.lines)
  | jump b target => headLines b ++ [.goto target]
  | go b _ next => headLines b ++ next.lines
  | ret b => headLines b ++ [.ret]
  | stuck b => headLines b

theorem nodeLines_nodes (r : Region) : nodeLines r.nodes = r.lines := by
  induction r with
  | skip | missing => rfl
  | loop b cond t f next ih | fork b cond t f body next _ ih =>
    simp [nodes, lines, nodeLines_append, nodeLines, HighLevelAst.lines, elseLines,
      nodeLines_headNodes, lines_wrapNodes, *]
  | doWhile b cond t f body ih =>
    simp [nodes, lines, nodeLines_append, nodeLines, HighLevelAst.lines, elseLines,
      nodeLines_headNodes, lines_wrapNodes, ih]
  | jump | go | ret | stuck =>
    simp [nodes, lines, nodeLines_append, nodeLines, HighLevelAst.lines, nodeLines_headNodes, *]

def gotos : Region → List Address
  | skip | missing _ => []
  | loop _ _ t _ next => t :: next.gotos
  | doWhile _ _ _ f body => body.gotos ++ [f]
  | fork _ _ _ _ body next => body.gotos ++ next.gotos
  | jump _ target => [target]
  | go _ _ next => next.gotos
  | ret _ | stuck _ => []

end Region

@[simp] theorem filterMap_label?_headLines (b : BasicBlock) :
    (headLines b).filterMap Line.label? = [b.startAddress] := by
  rw [headLines, codeLines]
  split <;> rfl

@[simp] theorem filterMap_code?_headLines (b : BasicBlock) :
    (headLines b).filterMap Line.code? = (codeLines b).filterMap Line.code? := rfl

@[simp] theorem flatMap_targets_headLines (b : BasicBlock) :
    (headLines b).flatMap Line.targets = [] := by
  have hplain : b.plainOps.filterMap Instruction.branchTarget? = [] := by
    rw [List.filterMap_eq_nil_iff]
    intro op hop
    have ht : op.isTerminator = false := by simpa using (List.mem_filter.mp hop).2
    cases op <;> first | rfl | cases ht
  rw [headLines, codeLines]
  split
  case isTrue => rfl
  case isFalse => simp [Line.targets, hplain]

namespace Region

theorem filterMap_label?_lines (r : Region) : r.lines.filterMap Line.label? = r.labels := by
  induction r with
  | skip | missing => rfl
  | _ => simp_all [lines, labels, taken, List.filterMap_cons, Line.label?]

theorem filterMap_code?_lines (r : Region) :
    r.lines.filterMap Line.code? = r.taken.flatMap fun b => (codeLines b).filterMap Line.code? := by
  induction r with
  | skip | missing => rfl
  | _ => simp_all [lines, taken, List.filterMap_cons, Line.code?]

theorem exists_taken_of_code {r : Region} {a : Address} {ops : List Instruction}
    (h : .code a ops ∈ r.lines) : ∃ b ∈ r.taken, b.startAddress = a ∧ ops = b.plainOps := by
  rw [← Line.mem_filterMap_code?, filterMap_code?_lines] at h
  obtain ⟨b, hb, h⟩ := List.mem_flatMap.mp h
  rw [Line.mem_filterMap_code?, codeLines] at h
  split at h
  case isTrue => cases h
  case isFalse =>
    obtain ⟨rfl, rfl⟩ := Line.code.inj (List.mem_singleton.mp h)
    exact ⟨b, hb, rfl, rfl⟩

theorem flatMap_targets_lines (r : Region) : r.lines.flatMap Line.targets = r.gotos := by
  induction r with
  | skip | missing => rfl
  | _ => simp_all [lines, gotos, Line.targets]

/-- The operations of a block that is taken stand directly behind its label. -/
theorem headLines_infix {r : Region} {b : BasicBlock} (hb : b ∈ r.taken) :
    headLines b <:+: r.lines := by
  induction r with
  | skip | missing => cases hb
  | loop c cond t f next ih =>
    rcases List.mem_cons.mp hb with rfl | hb
    · exact (List.prefix_append _ _).isInfix
    · exact (ih hb).trans ⟨headLines c ++ [.test cond, .goto t, .close], [], by simp [lines]⟩
  | doWhile c cond t f body ih =>
    rcases List.mem_cons.mp hb with rfl | hb
    · exact (List.prefix_append _ _).isInfix
    · exact (ih hb).trans ⟨headLines c ++ [.test cond], [.close, .goto f], by simp [lines]⟩
  | fork c cond t f body next ihb ihn =>
    rcases List.mem_cons.mp hb with rfl | hb
    · exact (List.prefix_append _ _).isInfix
    · rcases List.mem_append.mp hb with hb | hb
      · exact (ihb hb).trans ⟨headLines c ++ [.test cond], .close :: next.lines, by simp [lines]⟩
      · exact (ihn hb).trans
          ⟨headLines c ++ .test cond :: (body.lines ++ [.close]), [], by simp [lines]⟩
  | jump c target =>
    obtain rfl := List.mem_singleton.mp hb
    exact (List.prefix_append _ _).isInfix
  | go c target next ih =>
    rcases List.mem_cons.mp hb with rfl | hb
    · exact (List.prefix_append _ _).isInfix
    · exact (ih hb).trans (List.suffix_append _ _).isInfix
  | ret c =>
    obtain rfl := List.mem_singleton.mp hb
    exact (List.prefix_append _ _).isInfix
  | stuck c =>
    obtain rfl := List.mem_singleton.mp hb
    exact List.infix_rfl

end Region

end Structurer

end Decompiler
