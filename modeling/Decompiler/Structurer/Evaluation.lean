import Decompiler.Structurer.Execution

/-! # Evaluating graphs and syntax trees

Every safe step of the graph is matched by at least one step of the syntax tree, and the steps of
both are determined. So the two run to their ends together, or both of them forever.
-/

namespace Decompiler.Structurer

open Cfg StateTransition

variable {callee : BranchTarget → State → State}

theorem reaches_of_iterate {α : Type} {f : α → Option α} {a b : α} {n : ℕ}
    (h : (fun x => x.bind f)^[n] (some a) = some b) : Reaches f a b := by
  induction n generalizing b with
  | zero =>
    obtain rfl := Option.some.inj h
    exact .refl
  | succ n ih =>
    rw [Function.iterate_succ_apply'] at h
    obtain ⟨c, hc, hstep⟩ := Option.bind_eq_some_iff.mp h
    exact (ih hc).tail hstep

theorem exists_execOps {ops : List Instruction} (hops : ∀ op ∈ ops, op.WellFormed) (σ : State) :
    ∃ r, execOps callee ops σ = some r := by
  induction ops generalizing σ with
  | nil => exact ⟨_, rfl⟩
  | cons op ops ih =>
    obtain ⟨hop, hops⟩ := List.forall_mem_cons.mp hops
    rw [execOps]
    cases op.control σ with
    | fall =>
      obtain ⟨σ', hσ'⟩ := hop.exists_exec callee σ
      rw [hσ']
      exact ih hops σ'
    | jump | stop => exact ⟨_, rfl⟩

structure Shadows (callee : BranchTarget → State → State) (g : Function) (ast : HighLevelAst)
    (x : Place × State) (u : Code × State) : Prop where
  safe : ∀ z, GraphRuns callee g.blocks x z → SafeExec callee g z
  agrees : Agrees ast x.1 u.1
  state : u.2 = x.2

def Place.code? : Place → Option Code
  | .block _ => none
  | .left a => some (.left a)
  | .finished => some .finished

theorem Place.code?_injective {p q : Place} {c : Code} (hp : p.code? = some c)
    (hq : q.code? = some c) : p = q := by
  cases p with
  | block a => cases hp
  | left a =>
    obtain rfl := Option.some.inj hp
    cases q with
    | left b => rw [Code.left.inj (Option.some.inj hq)]
    | block | finished => cases hq
  | finished =>
    obtain rfl := Option.some.inj hp
    cases q with
    | finished => rfl
    | block | left => cases hq

theorem Agrees.eq_code {ast : HighLevelAst} {p : Place} {c d : Code} (h : Agrees ast p c)
    (hp : p.code? = some d) : c = d := by
  cases p with
  | block a => cases hp
  | left a =>
    obtain rfl := Option.some.inj hp
    exact h.left a rfl
  | finished =>
    obtain rfl := Option.some.inj hp
    exact h.finished rfl

theorem Agrees.code?_eq {ast : HighLevelAst} {p q : Place} {c : Code} (h : Agrees ast p c)
    (hq : q.code? = some c) : p.code? = some c := by
  cases p with
  | block a =>
    obtain ⟨k, -, rfl⟩ := h.block a rfl
    cases q <;> cases hq
  | left a => exact congrArg some (h.left a rfl).symm
  | finished => exact congrArg some (h.finished rfl).symm

section Walk

variable {flat : List LiftedInstruction} {g : Function}
  {backEdges : Finset (Address × Address)} {r : Region} (hw : IsWalk flat g backEdges r)
  (hlast : ∀ li ∈ flat, ∀ op ∈ li.ops.dropLast, op.isTerminator = false)
  (hwf : ∀ b ∈ g.blocks, ∀ op ∈ b.ops, op.WellFormed)

include hw hlast hwf

theorem IsWalk.respects : Respects (graphExec callee g.blocks)
    (astExec callee (wrapNodes r.nodes)) (Shadows callee g (wrapNodes r.nodes)) := by
  rintro ⟨place, σ⟩ ⟨code, τ⟩ ⟨hsafe, hagrees, hstate⟩
  obtain rfl : τ = σ := hstate
  cases place with
  | left a =>
    obtain rfl : code = .left a := hagrees.left a rfl
    rfl
  | finished =>
    obtain rfl : code = .finished := hagrees.finished rfl
    rfl
  | block a =>
    have hstart : a ∈ starts g.blocks := by
      obtain ⟨k, hk, -⟩ := hagrees.block a rfl
      refine hw.mem_starts ?_
      by_contra hnot
      rw [afterLabel_wrapNodes, afterLabelIn_nodes_eq_none hnot] at hk
      cases hk
    obtain ⟨b, hb, rfl⟩ := Cfg.mem_starts.mp hstart
    have hfound : blockStarting g.blocks b.startAddress = some b :=
      (blockStarting_eq_some hw.graph.nodup_starts).mpr ⟨hb, rfl⟩
    obtain ⟨⟨σ', control⟩, hexec⟩ := @exists_execOps callee b.ops (hwf b hb) τ
    have hstep := graphExec_eq hfound hexec
    rw [hstep]
    obtain ⟨c', hruns, hagrees'⟩ := hw.exec_step hlast hfound hexec (hsafe _ .refl) hagrees
    exact ⟨(c', σ'), ⟨fun z hz => hsafe z (.head hstep hz), hagrees', rfl⟩, hruns⟩

/-- From a safe start the graph and the syntax tree have the same ends. -/
theorem IsWalk.eval_iff {σ : State}
    (hsafe : ∀ z, GraphRuns callee g.blocks (.block g.entry, σ) z → SafeExec callee g z) :
    ((eval (graphExec callee g.blocks) (.block g.entry, σ)).Dom ↔
      (eval (astExec callee (wrapNodes r.nodes)) (.run [wrapNodes r.nodes], σ)).Dom) ∧
    ∀ p c σ', p.code? = some c → ((p, σ') ∈ eval (graphExec callee g.blocks) (.block g.entry, σ) ↔
      (c, σ') ∈ eval (astExec callee (wrapNodes r.nodes)) (.run [wrapNodes r.nodes], σ)) := by
  obtain ⟨d, hstart, hd⟩ := @IsWalk.exec_start callee _ _ _ _ hw σ
  have hshadows : Shadows callee g (wrapNodes r.nodes) (.block g.entry, σ) (d, σ) :=
    ⟨hsafe, hd, rfl⟩
  rw [reaches_eval hstart]
  refine ⟨(tr_eval_dom (hw.respects hlast hwf) hshadows).symm, fun p c σ' hp => ⟨?_, ?_⟩⟩
  · intro h
    obtain ⟨⟨c', τ⟩, ⟨-, hagrees, hτ⟩, heval⟩ := tr_eval (hw.respects hlast hwf) hshadows h
    obtain rfl : τ = σ' := hτ
    rwa [← hagrees.eq_code hp]
  · intro h
    obtain ⟨⟨p', τ⟩, ⟨-, hagrees, hτ⟩, heval⟩ := tr_eval_rev (hw.respects hlast hwf) hshadows h
    obtain rfl : σ' = τ := hτ
    rwa [← Place.code?_injective (hagrees.code?_eq hp) hp]

end Walk

/-- The syntax tree computes what the graph computes: for a run of the graph whose steps are all
safe, both of them return, leave the function at the same address or run forever, and they leave
the same registers and memory. -/
theorem tree_evaluates_as_graph {arch : Arch} {name : String} {bytes : List UInt8} {base : Address}
    {f g : Function} {ast : HighLevelAst} (hf : arch.processFunction name bytes base = .ok f)
    (hg : build f = .ok g) (hast : doStructure g = .ok ast) (hne : g.blocks ≠ [])
    (callee : BranchTarget → State → State) {σ : State}
    (hsafe : ∀ z, GraphRuns callee g.blocks (.block g.entry, σ) z → SafeExec callee g z) :
    ((eval (graphExec callee g.blocks) (.block g.entry, σ)).Dom ↔
      (eval (astExec callee ast) (.run [ast], σ)).Dom) ∧
    ∀ p c σ', p.code? = some c → ((p, σ') ∈ eval (graphExec callee g.blocks) (.block g.entry, σ) ↔
      (c, σ') ∈ eval (astExec callee ast) (.run [ast], σ)) := by
  obtain ⟨flat, rfl, hflat⟩ := arch.processFunction_eq_ok hf
  obtain ⟨g', hg', rfl, hgraph⟩ := @build_ofStream name base flat hflat.nodup
  obtain rfl := Except.ok.inj (hg.symm.trans hg')
  obtain ⟨backEdges, r, hw⟩ := exists_walk hgraph hflat.isYielded hne
  obtain rfl := Except.ok.inj (hast.symm.trans hw.ast)
  exact hw.eval_iff (fun li hli => (hflat.shaped li hli).terminator_last)
    (fun b hb op hop => hw.graph.wellFormed hflat hb hop) hsafe

/-- `mov eax, 3`, then `add eax, -1; cmp eax, 0; jne` back to the addition, `ret` -/
def countdown : List UInt8 :=
  [0xB8, 0x03, 0x00, 0x00, 0x00, 0x83, 0xC0, 0xFF, 0x3D, 0x00, 0x00, 0x00, 0x00, 0x75, 0xF6, 0xC3]

theorem tree_evaluates_as_graph_countdown :
    ∃ f, Arch.x86.processFunction "input" countdown 0x1000 = .ok f ∧
      ∃ g, build f = .ok g ∧ ∃ ast, doStructure g = .ok ast ∧
        ∃ σ', (Code.finished, σ') ∈ eval (astExec (fun _ σ => σ) ast) (.run [ast], .zero) ∧
          σ'.read (X86.regVarnode .eax) = 0 := by
  have hrun : ∃ f, Arch.x86.processFunction "input" countdown 0x1000 = .ok f ∧
      ∃ g, build f = .ok g ∧ g.blocks ≠ [] ∧ (∃ ast, doStructure g = .ok ast ∧ True) ∧
        (∀ b ∈ g.blocks, ∀ o, SafeAt g (fun _ => o) ⟨.block b.startAddress, 0, []⟩) ∧
        ((fun x => x.bind (graphExec (fun _ σ => σ) g.blocks))^[5]
          (some (.block g.entry, State.zero))).map
            (fun x => (x.1, x.2.read (X86.regVarnode .eax))) = some (.finished, 0) := by
    decide +kernel
  obtain ⟨f, hf, g, hg, hne, ⟨ast, hast, -⟩, hsafe, hend⟩ := hrun
  obtain ⟨⟨p, σ'⟩, hiter, hp⟩ := Option.map_eq_some_iff.mp hend
  obtain ⟨rfl, hread⟩ := Prod.mk.inj hp
  have hfinished : (Place.finished, σ') ∈ eval (graphExec (fun _ σ => σ) g.blocks)
      (.block g.entry, .zero) := mem_eval.mpr ⟨reaches_of_iterate hiter, rfl⟩
  have hsafe' : ∀ z, GraphRuns (fun _ σ => σ) g.blocks (.block g.entry, .zero) z →
      SafeExec (fun _ σ => σ) g z := fun z _ => .of_forall hsafe z
  have hsame := tree_evaluates_as_graph hf hg hast hne (fun _ σ => σ) hsafe'
  exact ⟨f, hf, g, hg, ast, hast, σ', (hsame.2 .finished .finished σ' rfl).mp hfinished, hread⟩

end Decompiler.Structurer
