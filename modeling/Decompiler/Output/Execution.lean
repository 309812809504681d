import Decompiler.Library.Divergence
import Decompiler.Output.Meaning
import Decompiler.Structurer.Execution

/-! # Executing the printed function

The statements of a syntax tree follow its execution node by node: what is left to execute in C is
the text of what is left of the tree, and a jump finds its label where the tree does.
-/

namespace Decompiler.Output

open CLanguage Structurer

section Labels

theorem digitChar_injective {m n : ℕ} (hm : m < 16) (hn : n < 16)
    (h : m.digitChar = n.digitChar) : m = n := by
  have hall : ∀ m n : Fin 16, m.val.digitChar = n.val.digitChar → m = n := by decide
  exact Fin.mk.inj (hall ⟨m, hm⟩ ⟨n, hn⟩ h)

theorem toDigits_injective {m n : ℕ} (h : Nat.toDigits 16 m = Nat.toDigits 16 n) : m = n := by
  induction m using Nat.strongRecOn generalizing n with
  | ind m ih =>
    rw [Nat.toDigits_eq_if (by decide), Nat.toDigits_eq_if (b := 16) (n := n) (by decide)] at h
    have hlast : ∀ k : ℕ, k % 16 < 16 := fun k => Nat.mod_lt k (by decide)
    split_ifs at h with hm hn hn
    · exact digitChar_injective hm hn (List.singleton_inj.mp h)
    · exact absurd (List.append_eq_singleton_iff.mp h.symm) (by simp [Nat.toDigits_ne_nil])
    · exact absurd (List.append_eq_singleton_iff.mp h) (by simp [Nat.toDigits_ne_nil])
    · obtain ⟨hinit, hdigit⟩ := List.append_inj' h rfl
      have hdiv := ih (m / 16) (by omega) hinit
      have hmod := digitChar_injective (hlast m) (hlast n) (List.singleton_inj.mp hdigit)
      omega

theorem branchTarget_injective {a b : Address}
    (h : branchTarget (.absolute a) = branchTarget (.absolute b)) : a = b := by
  have hchars := congrArg String.toList h
  rw [branchTarget, branchTarget, String.toList_append, String.toList_append,
    List.append_cancel_left_eq, hex, hex, String.toList_ofList, String.toList_ofList] at hchars
  exact UInt64.toNat_inj.mp (toDigits_injective hchars)

variable {a : Address} {k : List HighLevelAst}

theorem afterIn_statements (name : String) (k : List Stmt) (ops : List Instruction) :
    afterIn name k (ops.flatMap statements) = none := by
  induction ops with
  | nil => rfl
  | cons op ops ih =>
    rw [List.flatMap_cons, afterIn_append, ih, Option.or_none]
    cases op with
    | call target => cases target <;> rfl
    | _ => rfl

theorem nodesBody_append (l m : List HighLevelAst) :
    nodesBody (l ++ m) = nodesBody l ++ nodesBody m := by
  simp [nodesBody_eq_flatMap]

mutual

theorem afterIn_body (a : Address) (k : List HighLevelAst) (ast : HighLevelAst) :
    afterIn (branchTarget (.absolute a)) (nodesBody k) (body ast) =
      (afterLabel a k ast).map nodesBody := by
  cases ast with
  | block b ops => exact afterIn_statements _ _ ops
  | seq nodes =>
    rw [body, afterLabel]
    exact afterIn_nodesBody a k nodes
  | ifElse cond thenBody elseBody =>
    rw [body, afterLabel, afterIn, afterIn, Option.or_none, Stmt.after, List.nil_append,
      afterIn_body a k thenBody, afterElse_body a k elseBody, Option.map_or]
  | whileDo cond loop =>
    rw [body, afterLabel, afterIn, afterIn, Option.or_none, Stmt.after, List.nil_append,
      ← afterIn_body a (.whileDo cond loop :: k) loop]
    rfl
  | goto target => rfl
  | label b =>
    rw [body, afterLabel, afterIn, afterIn, Option.or_none, Stmt.after, List.nil_append]
    by_cases hb : b = a
    · rw [if_pos hb, if_pos (by rw [hb])]
      rfl
    · rw [if_neg hb, if_neg fun h => hb (branchTarget_injective h)]
      rfl
  | ret => rfl

theorem afterIn_nodesBody (a : Address) (k : List HighLevelAst) (nodes : List HighLevelAst) :
    afterIn (branchTarget (.absolute a)) (nodesBody k) (nodesBody nodes) =
      (afterLabelIn a k nodes).map nodesBody := by
  cases nodes with
  | nil => rfl
  | cons node nodes =>
    rw [nodesBody, afterIn_append, afterLabelIn, ← nodesBody_append, afterIn_body a _ node,
      afterIn_nodesBody a k nodes, Option.map_or]

theorem afterElse_body (a : Address) (k : List HighLevelAst) (els : Option HighLevelAst) :
    afterElse (branchTarget (.absolute a)) (nodesBody k) (elseBodyOf els) =
      (afterLabelElse a k els).map nodesBody := by
  cases els with
  | none => rfl
  | some els =>
    rw [elseBodyOf, afterElse, afterLabelElse]
    exact afterIn_body a k els

end

end Labels

def codeBody : Structurer.Code → CLanguage.Code
  | .run nodes => .run (nodesBody nodes)
  | .left a => .left (branchTarget (.absolute a))
  | .finished => .finished

theorem jump_body (a : Address) (ast : HighLevelAst) :
    jump (body ast) (branchTarget (.absolute a)) =
      codeBody (((afterLabel a [] ast).map Structurer.Code.run).getD (.left a)) := by
  have hfound := afterIn_body a [] ast
  rw [nodesBody] at hfound
  rw [jump, hfound]
  cases afterLabel a [] ast <;> rfl

section Lines

mutual

theorem mem_lines_afterLabel {a : Address} {k k' : List HighLevelAst} (ast : HighLevelAst)
    (h : afterLabel a k ast = some k') {line : Line} (hline : line ∈ nodeLines k') :
    line ∈ nodeLines k ∨ line ∈ ast.lines := by
  cases ast with
  | block | goto | ret => cases h
  | seq nodes =>
    rw [afterLabel] at h
    exact mem_lines_afterLabelIn nodes h hline
  | ifElse cond thenBody elseBody =>
    rw [afterLabel, Option.or_eq_some_iff] at h
    rw [HighLevelAst.lines]
    rcases h with h | ⟨-, h⟩
    · rcases mem_lines_afterLabel thenBody h hline with hmem | hmem
      · exact .inl hmem
      · exact .inr (by simp [hmem])
    · rcases mem_lines_afterLabelElse elseBody h hline with hmem | hmem
      · exact .inl hmem
      · exact .inr (by simp [hmem])
  | whileDo cond loop =>
    rw [afterLabel] at h
    have hloop := mem_lines_afterLabel loop h hline
    rw [nodeLines, List.mem_append] at hloop
    rcases hloop with (hmem | hmem) | hmem
    · exact .inr hmem
    · exact .inl hmem
    · exact .inr (by simp [HighLevelAst.lines, hmem])
  | label b =>
    rw [afterLabel] at h
    split at h
    · obtain rfl := Option.some.inj h
      exact .inl hline
    · cases h

theorem mem_lines_afterLabelIn {a : Address} {k k' : List HighLevelAst}
    (nodes : List HighLevelAst) (h : afterLabelIn a k nodes = some k') {line : Line}
    (hline : line ∈ nodeLines k') : line ∈ nodeLines k ∨ line ∈ nodeLines nodes := by
  cases nodes with
  | nil => cases h
  | cons node nodes =>
    rw [afterLabelIn, Option.or_eq_some_iff] at h
    rw [nodeLines, List.mem_append]
    rcases h with h | ⟨-, h⟩
    · have hnode := mem_lines_afterLabel node h hline
      rw [nodeLines_append, List.mem_append] at hnode
      tauto
    · have hnodes := mem_lines_afterLabelIn nodes h hline
      tauto

theorem mem_lines_afterLabelElse {a : Address} {k k' : List HighLevelAst}
    (els : Option HighLevelAst) (h : afterLabelElse a k els = some k') {line : Line}
    (hline : line ∈ nodeLines k') : line ∈ nodeLines k ∨ line ∈ elseLines els := by
  cases els with
  | none => cases h
  | some els =>
    rw [afterLabelElse] at h
    rcases mem_lines_afterLabel els h hline with hmem | hmem
    · exact .inl hmem
    · exact .inr (List.mem_cons_of_mem _ hmem)

end

end Lines

def Tested (S : Set Varnode) (v : Varnode) : Prop := v.Sized ∧ (v.space = .constant ∨ v ∈ S)

structure PlainLines (S : Set Varnode) (lines : List Line) : Prop where
  code : ∀ a ops, .code a ops ∈ lines → ∀ op ∈ ops, Plain S op
  test : ∀ c, .test c ∈ lines → Tested S c

theorem PlainLines.mono {S : Set Varnode} {l m : List Line} (h : PlainLines S m)
    (hsub : ∀ line ∈ l, line ∈ m) : PlainLines S l :=
  ⟨fun a ops hcode => h.code a ops (hsub _ hcode), fun c htest => h.test c (hsub _ htest)⟩

def PlainCode (S : Set Varnode) : Structurer.Code → Prop
  | .run nodes => PlainLines S (nodeLines nodes)
  | .left _ | .finished => True

namespace PlainCode

variable {S : Set Varnode} {cond : Varnode} {k : List HighLevelAst}

theorem branch {thenBody : HighLevelAst} {elseBody : Option HighLevelAst}
    (h : PlainCode S (.run (.ifElse cond thenBody elseBody :: k))) (p : Prop) [Decidable p] :
    PlainCode S (.run (if p then thenBody :: k else elseBody.toList ++ k)) := by
  refine h.mono fun line hline => ?_
  rw [nodeLines, List.mem_append, HighLevelAst.lines]
  split at hline
  · rw [nodeLines, List.mem_append] at hline
    rcases hline with hline | hline <;> simp [hline]
  · cases elseBody with
    | none => exact .inr hline
    | some els =>
      rw [Option.toList_some, List.singleton_append, nodeLines, List.mem_append] at hline
      rcases hline with hline | hline <;> simp [elseLines, hline]

theorem loop {body : HighLevelAst} (h : PlainCode S (.run (.whileDo cond body :: k)))
    (p : Prop) [Decidable p] :
    PlainCode S (.run (if p then body :: .whileDo cond body :: k else k)) := by
  refine h.mono fun line hline => ?_
  rw [nodeLines, List.mem_append, HighLevelAst.lines]
  split at hline
  · rw [nodeLines, nodeLines, HighLevelAst.lines, List.mem_append, List.mem_append] at hline
    rcases hline with hline | hline | hline <;> simp [hline]
  · exact .inr hline

end PlainCode

section Size

mutual

def nodeSize : HighLevelAst → ℕ
  | .seq nodes => nodesSize nodes + 1
  | _ => 1

def nodesSize : List HighLevelAst → ℕ
  | [] => 0
  | node :: nodes => nodeSize node + nodesSize nodes

end

theorem nodesSize_append (l m : List HighLevelAst) :
    nodesSize (l ++ m) = nodesSize l + nodesSize m := by
  induction l with
  | nil => simp [nodesSize]
  | cons node l ih => simp [nodesSize, ih, Nat.add_assoc]

def codeSize : Structurer.Code → ℕ
  | .run nodes => nodesSize nodes
  | .left _ | .finished => 0

end Size

variable {Γ : String → IntType} {S : Set Varnode} {ρ : Env Bytes} {σ σ' : State}
  {callee : BranchTarget → State → State} {callee' : String → Env Bytes → Env Bytes}
  (hS : Scope Γ S) (hcalls : SameCalls S callee callee')

section Tests

variable {stmts : List Stmt} {cond : Varnode} {k : List HighLevelAst} {x : IntType × ℤ}
  (hx : (operandExpr cond).eval Γ ρ = some x) (hread : x.2 = σ.read cond)

include hx hread

theorem step_ifElse {thenBody : HighLevelAst} {elseBody : Option HighLevelAst} :
    step Γ callee' stmts (codeBody (.run (.ifElse cond thenBody elseBody :: k)), ρ) =
      some (codeBody (.run (if σ.read cond ≠ 0 then thenBody :: k else elseBody.toList ++ k)),
        ρ) := by
  have helse : (elseBodyOf elseBody).getD [] = nodesBody elseBody.toList := by
    cases elseBody with
    | none => rfl
    | some els => simp [elseBodyOf, nodesBody]
  rw [codeBody, nodesBody, body, List.singleton_append, step, hx, Option.map_some, hread, helse,
    ← nodesBody_append]
  simp only [ne_eq, Nat.cast_eq_zero]
  split <;> rfl

theorem step_whileDo {loop : HighLevelAst} :
    step Γ callee' stmts (codeBody (.run (.whileDo cond loop :: k)), ρ) =
      some (codeBody (.run (if σ.read cond ≠ 0 then loop :: .whileDo cond loop :: k else k)),
        ρ) := by
  rw [codeBody, nodesBody, body, List.singleton_append, step, hx, Option.map_some, hread]
  simp only [ne_eq, Nat.cast_eq_zero]
  split <;> rfl

end Tests

include hS hcalls

theorem runs_operations {ops : List Instruction} (hops : ∀ op ∈ ops, Plain S op)
    (hρ : Holds S ρ σ) (hσ : σ.Bounded) (h : execOps callee ops σ = some (σ', .fall))
    {stmts k : List Stmt} :
    ∃ ρ', Runs Γ callee' stmts (.run (ops.flatMap statements ++ k), ρ) (.run k, ρ') ∧
      Holds S ρ' σ' ∧ σ'.Bounded := by
  induction ops generalizing ρ σ with
  | nil =>
    obtain ⟨rfl, -⟩ := Prod.mk.inj (Option.some.inj h)
    exact ⟨ρ, .refl, hρ, hσ⟩
  | cons op ops ih =>
    rw [execOps] at h
    cases hcontrol : op.control σ with
    | jump target =>
      rw [hcontrol] at h
      cases h
    | stop =>
      rw [hcontrol] at h
      cases h
    | fall =>
      rw [hcontrol] at h
      obtain ⟨σ₁, hexec, h⟩ := Option.bind_eq_some_iff.mp h
      obtain ⟨ρ₁, hruns, hρ₁⟩ :=
        runs_statements hS hρ hσ hcalls (hops op List.mem_cons_self) hcontrol hexec
      have hσ₁ : σ₁.Bounded := hσ.exec (fun target _ => hcalls.bounded target σ hσ) hexec
      obtain ⟨ρ', hrest, hρ', hσ'⟩ :=
        ih (fun o ho => hops o (List.mem_cons_of_mem op ho)) hρ₁ hσ₁ h
      rw [List.flatMap_cons, List.append_assoc]
      exact ⟨ρ', hruns.trans hrest, hρ', hσ'⟩

/-- One node of a tree is executed by its statements, of which there is one at least or less of
the tree is left. -/
theorem runs_astExec {ast : HighLevelAst} (hast : PlainLines S ast.lines)
    {c c' : Structurer.Code} (hc : PlainCode S c) (hρ : Holds S ρ σ) (hσ : σ.Bounded)
    (h : astExec callee ast (c, σ) = some (c', σ')) :
    ∃ ρ', (StateTransition.Reaches₁ (step Γ callee' (body ast)) (codeBody c, ρ) (codeBody c', ρ') ∨
        Runs Γ callee' (body ast) (codeBody c, ρ) (codeBody c', ρ') ∧ codeSize c' < codeSize c) ∧
      Holds S ρ' σ' ∧ σ'.Bounded ∧ PlainCode S c' := by
  have htest : ∀ v, Tested S v → ∃ x, (operandExpr v).eval Γ ρ = some x ∧ x.2 = σ.read v := by
    rintro v ⟨hsized, hin⟩
    obtain ⟨x, hx, hread, -⟩ := eval_operandExpr hS hρ hσ hsized hin
    exact ⟨x, hx, hread⟩
  cases c with
  | left | finished => cases h
  | run nodes =>
    cases nodes with
    | nil =>
      obtain ⟨rfl, rfl⟩ := Prod.mk.inj (Option.some.inj h)
      exact ⟨ρ, .inl (.single rfl), hρ, hσ, trivial⟩
    | cons node k =>
      have hk : PlainLines S (nodeLines k) := hc.mono fun line hline => by simp [nodeLines, hline]
      cases node with
      | block a ops =>
        obtain ⟨⟨σ₁, control⟩, hexec, h⟩ := Option.bind_eq_some_iff.mp h
        split at h
        case isTrue hfall =>
          obtain rfl : control = .fall := hfall
          obtain ⟨rfl, rfl⟩ := Prod.mk.inj (Option.some.inj h)
          obtain ⟨ρ', hruns, hρ', hσ'⟩ := runs_operations hS hcalls
            (hc.code a ops (by simp [nodeLines, HighLevelAst.lines])) hρ hσ hexec
          exact ⟨ρ', .inr ⟨hruns, by simp [codeSize, nodesSize, nodeSize]⟩, hρ', hσ', hk⟩
        case isFalse => cases h
      | seq nodes =>
        obtain ⟨rfl, rfl⟩ := Prod.mk.inj (Option.some.inj h)
        have hsize : codeSize (.run (nodes ++ k)) < codeSize (.run (.seq nodes :: k)) := by
          simp [codeSize, nodesSize, nodeSize, nodesSize_append]
        refine ⟨ρ, .inr ⟨?_, hsize⟩, hρ, hσ, hc.mono fun line hline => ?_⟩
        · rw [codeBody, codeBody, nodesBody, body, nodesBody_append]
          exact .refl
        · rwa [nodeLines_append] at hline
      | ifElse cond thenBody elseBody =>
        obtain ⟨rfl, rfl⟩ := Prod.mk.inj (Option.some.inj h)
        obtain ⟨x, hx, hread⟩ := htest cond (hc.test cond (by simp [nodeLines, HighLevelAst.lines]))
        exact ⟨ρ, .inl (.single (step_ifElse hx hread)), hρ, hσ, hc.branch _⟩
      | whileDo cond loop =>
        obtain ⟨rfl, rfl⟩ := Prod.mk.inj (Option.some.inj h)
        obtain ⟨x, hx, hread⟩ := htest cond (hc.test cond (by simp [nodeLines, HighLevelAst.lines]))
        exact ⟨ρ, .inl (.single (step_whileDo hx hread)), hρ, hσ, hc.loop _⟩
      | goto a =>
        obtain ⟨rfl, rfl⟩ := Prod.mk.inj (Option.some.inj h)
        refine ⟨ρ, .inl (.single ?_), hρ, hσ, ?_⟩
        · rw [Option.mem_def, ← jump_body]
          rfl
        · cases hfound : afterLabel a [] ast with
          | none => trivial
          | some k' =>
            exact hast.mono fun line hline =>
              (mem_lines_afterLabel ast hfound hline).resolve_left List.not_mem_nil
      | label a =>
        obtain ⟨rfl, rfl⟩ := Prod.mk.inj (Option.some.inj h)
        exact ⟨ρ, .inl (.single rfl), hρ, hσ, hk⟩
      | ret =>
        obtain ⟨rfl, rfl⟩ := Prod.mk.inj (Option.some.inj h)
        exact ⟨ρ, .inl (.single rfl), hρ, hσ, trivial⟩

theorem runs_astRuns {ast : HighLevelAst} (hast : PlainLines S ast.lines)
    {x y : Structurer.Code × State} (hc : PlainCode S x.1) (hρ : Holds S ρ x.2)
    (hσ : x.2.Bounded) (h : AstRuns callee ast x y) :
    ∃ ρ', Runs Γ callee' (body ast) (codeBody x.1, ρ) (codeBody y.1, ρ') ∧ Holds S ρ' y.2 := by
  have hall : ∃ ρ', Runs Γ callee' (body ast) (codeBody x.1, ρ) (codeBody y.1, ρ') ∧
      Holds S ρ' y.2 ∧ y.2.Bounded ∧ PlainCode S y.1 := by
    induction h with
    | refl => exact ⟨ρ, .refl, hρ, hσ, hc⟩
    | tail _ hstep ih =>
      obtain ⟨ρ₁, hruns, hρ₁, hσ₁, hc₁⟩ := ih
      obtain ⟨ρ', hrest, hρ', hσ', hc'⟩ := runs_astExec hS hcalls hast hc₁ hρ₁ hσ₁ hstep
      have hrest : Runs Γ callee' (body ast) _ _ :=
        hrest.elim Relation.TransGen.to_reflTransGen And.left
      exact ⟨ρ', hruns.trans hrest, hρ', hσ', hc'⟩
  obtain ⟨ρ', hruns, hρ', -⟩ := hall
  exact ⟨ρ', hruns, hρ'⟩

/-- A place in the text and the values of its variables are those of the tree. -/
structure Spelled (S : Set Varnode) (x : Structurer.Code × State) (u : CLanguage.Code × Env Bytes) :
    Prop where
  code : u.1 = codeBody x.1
  plain : PlainCode S x.1
  holds : Holds S u.2 x.2
  bounded : x.2.Bounded

/-- Where the text comes to an end, so does the tree. -/
theorem dom_of_dom_body {ast : HighLevelAst} (hast : PlainLines S ast.lines)
    {x : Structurer.Code × State} {u : CLanguage.Code × Env Bytes} (hu : Spelled S x u)
    (h : (StateTransition.eval (step Γ callee' (body ast)) u).Dom) :
    (StateTransition.eval (astExec callee ast) x).Dom := by
  refine @Divergence.dom_of_follows _ _ _ _ (Spelled S) (fun x => codeSize x.1) ?_ x u hu h
  rintro ⟨c, σ⟩ ⟨c', σ'⟩ ⟨_, ρ⟩ ⟨rfl, hc, hρ, hσ⟩ hstep
  obtain ⟨ρ', hruns, hρ', hσ', hc'⟩ := runs_astExec hS hcalls hast hc hρ hσ hstep
  exact ⟨(codeBody c', ρ'), ⟨rfl, hc', hρ', hσ'⟩, hruns⟩

end Decompiler.Output
