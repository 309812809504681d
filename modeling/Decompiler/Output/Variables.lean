import Decompiler.Output.Arithmetic
import Decompiler.Output.Translation

/-! # The variables of a printed assignment

In the text a variable is its name. A name stands for the location that is declared under it
or, if none is, for the one that the assignment prints as it. The text reads and assigns the
locations of the operation if its names tell the locations apart.
-/

namespace Decompiler.Output

open CLanguage Decompiler.Types

namespace Operator

def binaryOp : Operator → BinaryOp
  | .add => .add
  | .sub => .sub

def ofBinaryOp? : BinaryOp → Option Operator
  | .add => some .add
  | .sub => some .sub
  | .eq | .ne | .lt | .le => none

end Operator

def assignment (o : Operator) (dest lhs rhs : Varnode) : Stmt :=
  .assign (targetName dest) (.binary o.binaryOp (operandExpr lhs) (operandExpr rhs))

/-- The names in an assignment, with the varnodes that are printed as them. -/
def printedNames (dest lhs rhs : Varnode) : List (String × Varnode) :=
  (targetName dest, dest) ::
    ([lhs, rhs].filter (·.space ≠ .constant)).map fun v => ((operandExpr v).text, v)

/-- The C type of a variable, and the location whose value it holds. -/
structure Variable where
  ctype : String
  location : Location

/-- The variable that a name stands for. Two declarations of one name are an error in C; a
name that is not declared is an unsigned integer, but not for a location that is declared under
another name. -/
def variableOf (f : Function) (names : List (String × Varnode)) (name : String) :
    Option Variable :=
  match (declared (programOps f)).filter (nameOf · = name) with
  | [w] => some ⟨declaredCtype f.types w, w.location⟩
  | [] =>
    match names.find? (·.1 = name) with
    | some (_, v) =>
      if Assigned (programOps f) v.location then none else some ⟨unsignedCtype v.size, v.location⟩
    | none => none
  | _ :: _ :: _ => none

section Evaluation

variable (vars : String → Option Variable) (σ : State)

def evalExpr : Expr → Option Value
  | .literal n => some (.literal n)
  | .var name => do
    let x ← vars name
    match readCtype x.ctype with
    | some (.word bytes) => some (.word bytes (σ.cells x.location))
    | some (.pointer pointee) => some (.pointer pointee (σ.cells x.location))
    | none => none
  | _ => none

/-- The location that an assignment changes and the value that its variable gets. -/
def evalStmt : Stmt → Option (Location × ℤ)
  | .assign name (.binary op l r) => do
    let o ← Operator.ofBinaryOp? op
    let value ← evalBinary o (← evalExpr vars σ l) (← evalExpr vars σ r)
    let x ← vars name
    let bytes ← ctypeBytes x.ctype
    return (x.location, value % 2 ^ (8 * bytes))
  | _ => none

end Evaluation

/-- The operation is printed as an assignment whose names stand for its varnodes, and which, for
all values of the operands, leaves the sum or difference that the operation assigns. -/
structure Means (f : Function) (o : Operator) (dest lhs rhs : Varnode) : Prop where
  printed : ∃ line, statement f.types (o.instruction dest lhs rhs) = .ok (some line) ∧
    (assignment o dest lhs rhs).text 0 = line ++ "\n"
  names : ∀ p ∈ printedNames dest lhs rhs,
    (variableOf f (printedNames dest lhs rhs) p.1).map Variable.location = some p.2.location
  value : ∀ σ : State, σ.Bounded →
    evalStmt (variableOf f (printedNames dest lhs rhs)) σ (assignment o dest lhs rhs) =
      some (dest.location, o.apply (σ.read lhs) (σ.read rhs) % 2 ^ (8 * dest.size.toNat))

/-- Each name in the assignment is printed for one location, no other location is declared under
it, and the location is not declared under another name. -/
def NamesTell (ops : List Instruction) (dest lhs rhs : Varnode) : Prop :=
  ∀ p ∈ printedNames dest lhs rhs,
    (∀ q ∈ printedNames dest lhs rhs, q.1 = p.1 → q.2.location = p.2.location) ∧
      ∀ w ∈ declared ops, nameOf w = p.1 ↔ w.location = p.2.location

instance (ops : List Instruction) (dest lhs rhs : Varnode) :
    Decidable (NamesTell ops dest lhs rhs) := by
  unfold NamesTell
  infer_instance

variable {f : Function} {o : Operator} {dest lhs rhs : Varnode}

theorem statement_assignment (hdest : dest.space ≠ .constant) :
    statement f.types (o.instruction dest lhs rhs) = .ok (some (targetName dest ++ " = " ++
      (Expr.binary o.binaryOp (operandExpr lhs) (operandExpr rhs)).text ++ ";")) := by
  obtain ⟨name, hname⟩ := varName_eq_ok hdest
  obtain rfl := varName_eq_targetName hname
  have hline : ∀ operator, binaryStatement dest lhs rhs "" operator ";" =
      .ok (targetName dest ++ " = " ++ ((operandExpr lhs).text ++ operator ++
        (operandExpr rhs).text) ++ ";") := by
    intro operator
    rw [binaryStatement, hname, operand_eq, operand_eq]
    refine congrArg Except.ok (String.toList_inj.mp ?_)
    simp
  cases o with
  | add => rw [Operator.instruction, statement, hline]; rfl
  | sub => rw [Operator.instruction, statement, hline]; rfl

theorem text_assignment : (assignment o dest lhs rhs).text 0 = targetName dest ++ " = " ++
    (Expr.binary o.binaryOp (operandExpr lhs) (operandExpr rhs)).text ++ ";" ++ "\n" := by
  rw [assignment, Stmt.text]
  apply String.toList_inj.mp
  simp [indentation]

theorem space_ne_of_statement {line : String}
    (h : statement f.types (o.instruction dest lhs rhs) = .ok (some line)) :
    dest.space ≠ .constant := by
  intro hspace
  have hname : varName dest = .error .unreachable := by rw [varName, hspace]
  cases o <;> simp [Operator.instruction, statement, binaryStatement, hname] at h

/-- Where the names tell the locations apart, a name stands for the location that it is printed
for, with the type that this location is declared with. -/
theorem NamesTell.variableOf_eq (h : NamesTell (programOps f) dest lhs rhs)
    {p : String × Varnode} (hp : p ∈ printedNames dest lhs rhs) :
    variableOf f (printedNames dest lhs rhs) p.1 =
      some ⟨variableCtype f p.2, p.2.location⟩ := by
  obtain ⟨hone, hdeclared⟩ := h p hp
  have hfilter : ∀ w, w ∈ (declared (programOps f)).filter (nameOf · = p.1) ↔
      w ∈ declared (programOps f) ∧ w.location = p.2.location := by
    intro w
    rw [List.mem_filter, decide_eq_true_iff]
    exact and_congr_right fun hw => hdeclared w hw
  have hnd : (((declared (programOps f)).filter (nameOf · = p.1)).map Varnode.location).Nodup :=
    (nodup_declared (programOps f)).sublist (List.filter_sublist.map _)
  unfold variableOf variableCtype
  generalize (declared (programOps f)).filter (nameOf · = p.1) = l at hfilter hnd ⊢
  match l with
  | [w] =>
    obtain ⟨hmem, hloc⟩ := (hfilter w).mp (List.mem_singleton_self w)
    have hctype : declaredCtype f.types w = declaredCtype f.types p.2 := by
      have hsize : w.size = p.2.size := congrArg Location.size hloc
      rw [declaredCtype, declaredCtype, hloc, hsize]
    simp only [if_pos (exists_mem_declared.mp ⟨w, hmem, hloc⟩), hctype, hloc]
  | [] =>
    have hnot : ¬ Assigned (programOps f) p.2.location := by
      intro hassigned
      obtain ⟨w, hw⟩ := exists_mem_declared.mpr hassigned
      cases (hfilter w).mpr hw
    obtain ⟨q, hq⟩ : ∃ q, (printedNames dest lhs rhs).find? (·.1 = p.1) = some q :=
      Option.isSome_iff_exists.mp (List.find?_isSome.mpr ⟨p, hp, by simp⟩)
    have hloc : q.2.location = p.2.location :=
      hone q (List.mem_of_find?_eq_some hq) (by simpa using List.find?_some hq)
    simp only [hq, hloc, if_neg hnot]
  | w :: w' :: _ =>
    -- a location is declared once
    have hw := ((hfilter w).mp (by simp)).2
    have hw' := ((hfilter w').mp (by simp)).2
    simp [hw, hw'] at hnd

theorem namesTell_of_variableOf (h : ∀ p ∈ printedNames dest lhs rhs,
    (variableOf f (printedNames dest lhs rhs) p.1).map Variable.location = some p.2.location) :
    NamesTell (programOps f) dest lhs rhs := by
  intro p hp
  have hvar := h p hp
  refine ⟨fun q hq hname => ?_, fun w hw => ?_⟩
  · have hq := h q hq
    rw [hname, hvar] at hq
    exact (Option.some.inj hq).symm
  have hfilter : ∀ w, w ∈ (declared (programOps f)).filter (nameOf · = p.1) ↔
      w ∈ declared (programOps f) ∧ nameOf w = p.1 := by
    intro w
    rw [List.mem_filter, decide_eq_true_iff]
  unfold variableOf at hvar
  generalize (declared (programOps f)).filter (nameOf · = p.1) = l at hfilter hvar
  match l with
  | [u] =>
    have hu : u.location = p.2.location := Option.some.inj hvar
    obtain ⟨hmem, hname⟩ := (hfilter u).mp (List.mem_singleton_self u)
    constructor
    · intro hwname
      rw [List.mem_singleton.mp ((hfilter w).mpr ⟨hw, hwname⟩), hu]
    · intro hloc
      rw [← List.inj_on_of_nodup_map (nodup_declared _) hmem hw (hu.trans hloc.symm), hname]
  | [] =>
    constructor
    · intro hwname
      cases (hfilter w).mpr ⟨hw, hwname⟩
    · intro hloc
      -- the location is not declared at all
      exfalso
      simp only at hvar
      split at hvar
      case h_1 name v hfind =>
        split at hvar
        case isTrue => cases hvar
        case isFalse hnot =>
          have hv : v.location = p.2.location := Option.some.inj hvar
          exact hnot (exists_mem_declared.mp ⟨w, hw, hloc.trans hv.symm⟩)
      case h_2 => cases hvar
  | u :: u' :: _ => cases hvar

theorem namesTell_iff : NamesTell (programOps f) dest lhs rhs ↔
    ∀ p ∈ printedNames dest lhs rhs,
      (variableOf f (printedNames dest lhs rhs) p.1).map Variable.location =
        some p.2.location :=
  ⟨fun h p hp => by rw [h.variableOf_eq hp]; rfl, namesTell_of_variableOf⟩

section Values

variable (h : NamesTell (programOps f) dest lhs rhs) (σ : State)

include h

theorem NamesTell.evalExpr_eq {v : Varnode} (hv : v = lhs ∨ v = rhs) :
    evalExpr (variableOf f (printedNames dest lhs rhs)) σ (operandExpr v) =
      evalOperand f σ v := by
  by_cases hconst : v.space = .constant
  · rw [evalOperand_literal hconst, operandExpr, hconst]
    rfl
  · have hp : ((operandExpr v).text, v) ∈ printedNames dest lhs rhs := by
      refine List.mem_cons_of_mem _ (List.mem_map.mpr ⟨v, ?_, rfl⟩)
      simp [List.mem_filter, hconst, hv]
    have hvar := h.variableOf_eq hp
    have hexpr : operandExpr v = .var (operandExpr v).text := by
      unfold operandExpr
      cases hspace : v.space with
      | constant => exact absurd hspace hconst
      | register | unique | memory => rfl
    rw [hexpr, evalExpr, hvar, evalOperand, if_neg hconst]
    rfl

/-- By names or by locations, the assignment has the same value. -/
theorem NamesTell.evalStmt_eq (hdest : dest.space ≠ .constant) :
    evalStmt (variableOf f (printedNames dest lhs rhs)) σ (assignment o dest lhs rhs) =
      (evalAssignment f σ o dest lhs rhs).map (dest.location, ·) := by
  have hop : Operator.ofBinaryOp? o.binaryOp = some o := by cases o <;> rfl
  rw [assignment, evalStmt, hop, h.evalExpr_eq σ (.inl rfl), h.evalExpr_eq σ (.inr rfl),
    evalAssignment, if_neg hdest, h.variableOf_eq List.mem_cons_self]
  cases evalOperand f σ lhs with
  | none => rfl
  | some a =>
    cases evalOperand f σ rhs with
    | none => rfl
    | some b =>
      simp only [Option.bind_eq_bind, Option.bind_some]
      cases evalBinary o a b with
      | none => rfl
      | some value => cases ctypeBytes (variableCtype f dest) <;> rfl

end Values

end Decompiler.Output
