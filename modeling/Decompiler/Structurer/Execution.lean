import Mathlib.Computability.StateTransition
import Decompiler.Cfg.Execution
import Decompiler.Structurer.Behaviour

/-! # Executing graphs and syntax trees on values

The two machines with a state: the conditions are the values of their varnodes. Where a step of
the graph is safe, the syntax tree comes with the same state to the block at which the graph
goes on.
-/

namespace Decompiler.Structurer

open Cfg Simulation

variable (callee : BranchTarget → State → State)

def placeAfter (bs : List BasicBlock) (a : Address) : Control → Place
  | .fall => fallFrom bs a
  | .jump (.absolute t) => branchTo bs t
  | .jump .indirect | .stop => .finished

def graphExec (bs : List BasicBlock) : Place × State → Option (Place × State)
  | (.left _, _) | (.finished, _) => none
  | (.block a, σ) => (blockStarting bs a).bind fun b =>
      (execOps callee b.ops σ).map fun r => (placeAfter bs a r.2, r.1)

def astExec (ast : HighLevelAst) : Code × State → Option (Code × State)
  | (.left _, _) | (.finished, _) => none
  | (.run [], σ) => some (.finished, σ)
  | (.run (.block _ ops :: k), σ) =>
    (execOps callee ops σ).bind fun r => if r.2 = .fall then some (.run k, r.1) else none
  | (.run (.seq nodes :: k), σ) => some (.run (nodes ++ k), σ)
  | (.run (.ifElse cond thenBody elseBody :: k), σ) =>
    some (.run (if σ.read cond ≠ 0 then thenBody :: k else elseBody.toList ++ k), σ)
  | (.run (.whileDo cond body :: k), σ) =>
    some (.run (if σ.read cond ≠ 0 then body :: .whileDo cond body :: k else k), σ)
  | (.run (.goto a :: _), σ) => some (((afterLabel a [] ast).map Code.run).getD (.left a), σ)
  | (.run (.label _ :: k), σ) => some (.run k, σ)
  | (.run (.ret :: _), σ) => some (.finished, σ)

abbrev GraphRuns (bs : List BasicBlock) : Place × State → Place × State → Prop :=
  StateTransition.Reaches (graphExec callee bs)

abbrev AstRuns (ast : HighLevelAst) : Code × State → Code × State → Prop :=
  StateTransition.Reaches (astExec callee ast)

structure Agrees (ast : HighLevelAst) (p : Place) (c : Code) : Prop where
  block : ∀ a, p = .block a → ∃ k, afterLabel a [] ast = some k ∧ c = .run k
  left : ∀ a, p = .left a → c = .left a
  finished : p = .finished → c = .finished

/-- The step that the graph takes from a block on a state is safe. -/
def SafeExec (g : Function) (x : Place × State) : Prop :=
  ∀ b σ' control, .block b.startAddress = x.1 → b ∈ g.blocks →
    execOps callee b.ops x.2 = some (σ', control) →
      SafeAt g (fun _ => control ≠ .fall) ⟨x.1, 0, []⟩

variable {callee} {ast : HighLevelAst} {outcomes : ℕ → Bool}

theorem SafeExec.of_forall {g : Function}
    (h : ∀ b ∈ g.blocks, ∀ o, SafeAt g (fun _ => o) ⟨.block b.startAddress, 0, []⟩)
    (x : Place × State) : SafeExec callee g x := by
  intro b σ' control hplace hb _
  rw [← hplace]
  exact h b hb _

theorem graphExec_eq {bs : List BasicBlock} {a : Address} {b : BasicBlock} {σ σ' : State}
    {control : Control} (hb : blockStarting bs a = some b)
    (h : execOps callee b.ops σ = some (σ', control)) :
    graphExec callee bs (.block a, σ) = some (placeAfter bs a control, σ') := by
  simp [graphExec, hb, h]

theorem Agrees.of_matches {p : Place} {d : Config Code} {tests : ℕ} {trace : List Instruction}
    (h : Matches ast ⟨p, tests, trace⟩ d) : Agrees ast p d.control :=
  ⟨h.block, h.left, h.finished⟩

section Quiet

theorem tests_le_astStep (d : Config Code) : d.tests ≤ (astStep ast outcomes d).tests := by
  obtain ⟨control, tests, trace⟩ := d
  cases control with
  | left a => exact Nat.le_refl _
  | finished => exact Nat.le_refl _
  | run nodes =>
    cases nodes with
    | nil => exact Nat.le_refl _
    | cons node k =>
      cases node with
      | ifElse => exact Nat.le_succ _
      | whileDo => exact Nat.le_succ _
      | _ => exact Nat.le_refl _

theorem tests_le_iterate (d : Config Code) (n : ℕ) :
    d.tests ≤ ((astStep ast outcomes)^[n] d).tests := by
  induction n with
  | zero => exact Nat.le_refl _
  | succ n ih =>
    rw [Function.iterate_succ_apply']
    exact ih.trans (tests_le_astStep _)

theorem trace_prefix_iterate (d : Config Code) (n : ℕ) :
    d.trace <+: ((astStep ast outcomes)^[n] d).trace := by
  induction n with
  | zero => exact List.prefix_rfl
  | succ n ih =>
    rw [Function.iterate_succ_apply']
    exact ih.trans (trace_prefix_astStep _)

theorem astExec_of_quiet {nodes : List HighLevelAst} {tests : ℕ} {trace : List Instruction}
    (σ : State) (htests : (astStep ast outcomes ⟨.run nodes, tests, trace⟩).tests = tests)
    (htrace : (astStep ast outcomes ⟨.run nodes, tests, trace⟩).trace = trace) :
    astExec callee ast (.run nodes, σ) =
      some ((astStep ast outcomes ⟨.run nodes, tests, trace⟩).control, σ) := by
  cases nodes with
  | nil => rfl
  | cons node k =>
    cases node with
    | block a ops =>
      obtain rfl : ops = [] := by simpa using htrace
      rfl
    | ifElse => exact absurd htests (Nat.succ_ne_self _)
    | whileDo => exact absurd htests (Nat.succ_ne_self _)
    | _ => rfl

theorem quiet_step {d : Config Code} {n : ℕ}
    (htests : ((astStep ast outcomes)^[n] (astStep ast outcomes d)).tests = d.tests)
    (htrace : ((astStep ast outcomes)^[n] (astStep ast outcomes d)).trace = d.trace) :
    (astStep ast outcomes d).tests = d.tests ∧ (astStep ast outcomes d).trace = d.trace := by
  have hle := @tests_le_astStep ast outcomes d
  have hle' := @tests_le_iterate ast outcomes (astStep ast outcomes d) n
  have hpre := @trace_prefix_astStep ast outcomes d
  have hpre' := @trace_prefix_iterate ast outcomes (astStep ast outcomes d) n
  rw [htrace] at hpre'
  exact ⟨by omega, (hpre.eq_of_length_le hpre'.length_le).symm⟩

theorem runs_of_quiet {d : Config Code} (σ : State) (n : ℕ)
    (htests : ((astStep ast outcomes)^[n] d).tests = d.tests)
    (htrace : ((astStep ast outcomes)^[n] d).trace = d.trace) :
    AstRuns callee ast (d.control, σ) (((astStep ast outcomes)^[n] d).control, σ) := by
  induction n generalizing d with
  | zero => exact .refl
  | succ n ih =>
    rw [Function.iterate_succ_apply] at htests htrace ⊢
    obtain ⟨hcount, hsame⟩ := quiet_step htests htrace
    have hrest := ih (htests.trans hcount.symm) (htrace.trans hsame.symm)
    obtain ⟨control, tests, trace⟩ := d
    cases control with
    | run nodes => exact .head (astExec_of_quiet σ hcount hsame) hrest
    | left a => exact hrest
    | finished => exact hrest

end Quiet

section Block

theorem execOps_of_plain {ops : List Instruction} (hops : ∀ op ∈ ops, op.isTerminator = false)
    {σ σ' : State} {control : Control} (h : execOps callee ops σ = some (σ', control)) :
    control = .fall := by
  induction ops generalizing σ with
  | nil => exact (Prod.mk.inj (Option.some.inj h)).2.symm
  | cons op ops ih =>
    have hfall : op.control σ = .fall := by
      have hop := hops op List.mem_cons_self
      cases op <;> first | rfl | cases hop
    rw [execOps, hfall] at h
    obtain ⟨σ₁, -, h⟩ := Option.bind_eq_some_iff.mp h
    exact ih (fun o ho => hops o (List.mem_cons_of_mem _ ho)) h

theorem execOps_append_of_plain {ops rest : List Instruction}
    (hops : ∀ op ∈ ops, op.isTerminator = false) (σ : State) :
    execOps callee (ops ++ rest) σ =
      (execOps callee ops σ).bind fun r => execOps callee rest r.1 := by
  induction ops generalizing σ with
  | nil => rfl
  | cons op ops ih =>
    have hfall : op.control σ = .fall := by
      have hop := hops op List.mem_cons_self
      cases op <;> first | rfl | cases hop
    have ih := ih fun o ho => hops o (List.mem_cons_of_mem _ ho)
    simp only [List.cons_append, execOps, hfall, ih, Option.bind_assoc]

variable {flat : List LiftedInstruction} {g : Function} (hg : IsGraphOf flat g)
  (hflat : IsYielded g.entry flat)
  (hlast : ∀ li ∈ flat, ∀ op ∈ li.ops.dropLast, op.isTerminator = false)
  {b : BasicBlock} (hb : b ∈ g.blocks)

theorem plain_of_mem_plainOps {op : Instruction} (h : op ∈ b.plainOps) :
    op.isTerminator = false := by
  simpa using (List.mem_filter.mp h).2

include hg hflat hlast hb

theorem ops_eq_plainOps_append : b.ops = b.plainOps ++ b.terminator?.toList := by
  rw [← filter_terminators hg hflat hb, ← takeWhile_ops hg hlast hb]
  have hdrop : ∀ ops : List Instruction, (∀ op ∈ ops.dropLast, op.isTerminator = false) →
      ops = ops.takeWhile (fun op => !op.isTerminator) ++ ops.filter Instruction.isTerminator := by
    intro ops
    induction ops with
    | nil => exact fun _ => rfl
    | cons op ops ih =>
      intro h
      cases ops with
      | nil => cases hop : op.isTerminator <;> simp [hop]
      | cons o ops =>
        have hop : op.isTerminator = false := h op (by simp)
        have hrest := ih fun o' ho' => h o' (by
          rw [List.dropLast_cons_cons]
          exact List.mem_cons_of_mem _ ho')
        rw [List.takeWhile_cons, hop, List.filter_cons, hop]
        simpa using hrest
  exact hdrop b.ops fun op hop => hg.cfg.isTerminator_dropLast hlast hb hop

/-- What the operations of a block do, in terms of what the walk distinguishes. -/
theorem exec_block {σ σ' : State} {control : Control}
    (h : execOps callee b.ops σ = some (σ', control)) (tests : ℕ) (trace : List Instruction) :
    execOps callee b.plainOps σ = some (σ', .fall) ∧
      ((exitOf b).step g.blocks (fun _ => control ≠ .fall) b tests trace).control =
        placeAfter g.blocks b.startAddress control ∧
      ∀ c t f, exitOf b = .cond c t f → (control ≠ .fall ↔ σ'.read c ≠ 0) := by
  have hplain : ∀ op ∈ b.plainOps, op.isTerminator = false := fun _ => plain_of_mem_plainOps
  rw [ops_eq_plainOps_append hg hflat hlast hb, execOps_append_of_plain hplain] at h
  obtain ⟨⟨σ₁, ctl⟩, hops, h⟩ := Option.bind_eq_some_iff.mp h
  obtain rfl := execOps_of_plain hplain hops
  have hexit := hasExit hg hflat hb
  generalize exitOf b = e at hexit ⊢
  cases hexit with
  | @cond c t f hterm hfalls =>
    rw [hterm] at h
    by_cases hread : σ₁.read c = 0
    · have hexec : execOps callee (some (Instruction.cbranch c (.absolute t))).toList σ₁ =
          some (σ₁, .fall) := by
        simp [execOps, Instruction.control, Instruction.exec, hread]
      obtain ⟨rfl, rfl⟩ := Prod.mk.inj (Option.some.inj (hexec.symm.trans h))
      refine ⟨hops, by simp [Exit.step, placeAfter], fun c' t' f' he => ?_⟩
      obtain ⟨rfl, -, -⟩ := Exit.cond.inj he
      simp [hread]
    · have hexec : execOps callee (some (Instruction.cbranch c (.absolute t))).toList σ₁ =
          some (σ₁, .jump (.absolute t)) := by
        simp [execOps, Instruction.control, hread]
      obtain ⟨rfl, rfl⟩ := Prod.mk.inj (Option.some.inj (hexec.symm.trans h))
      refine ⟨hops, by simp [Exit.step, placeAfter], fun c' t' f' he => ?_⟩
      obtain ⟨rfl, -, -⟩ := Exit.cond.inj he
      simp [hread]
  | jump hterm =>
    rw [hterm] at h
    obtain ⟨rfl, rfl⟩ := Prod.mk.inj (Option.some.inj h)
    exact ⟨hops, rfl, fun _ _ _ he => by cases he⟩
  | ret hterm =>
    rw [hterm] at h
    obtain ⟨rfl, rfl⟩ := Prod.mk.inj (Option.some.inj h)
    exact ⟨hops, rfl, fun _ _ _ he => by cases he⟩
  | next hterm hfalls =>
    rw [hterm] at h
    obtain ⟨rfl, rfl⟩ := Prod.mk.inj (Option.some.inj h)
    exact ⟨hops, by simp [Exit.step, placeAfter, fallFrom, hfalls], fun _ _ _ he => by cases he⟩
  | none hterm hfalls =>
    rw [hterm] at h
    obtain ⟨rfl, rfl⟩ := Prod.mk.inj (Option.some.inj h)
    exact ⟨hops, by simp [Exit.step, placeAfter, fallFrom, hfalls], fun _ _ _ he => by cases he⟩

end Block

section Tests

variable {p : Place} {k : List HighLevelAst} {tests : ℕ} {trace : List Instruction}

theorem MatchesFrom.runs (h : MatchesFrom ast outcomes k tests trace ⟨p, tests, trace⟩)
    (σ : State) :
    ∃ c, StateTransition.Reaches₁ (astExec callee ast) (.run k, σ) (c, σ) ∧ Agrees ast p c := by
  obtain ⟨d, ⟨n, hn, rfl⟩, hm⟩ := h
  obtain ⟨n, rfl⟩ := Nat.exists_eq_succ_of_ne_zero (Nat.ne_of_gt hn)
  rw [Function.iterate_succ_apply] at hm
  obtain ⟨hcount, hsame⟩ := quiet_step hm.tests hm.trace
  have hrest := @runs_of_quiet callee _ _ _ σ n (hm.tests.trans hcount.symm)
    (hm.trace.trans hsame.symm)
  exact ⟨_, .head' (astExec_of_quiet σ hcount hsame) hrest, .of_matches hm⟩

/-- After its first step, a test, the text does nothing but go where the graph goes. -/
theorem MatchesFrom.runs_test
    (h : MatchesFrom ast outcomes k tests trace ⟨p, tests + 1, trace⟩) {code : Code} {σ : State}
    (hstep : astStep ast outcomes ⟨.run k, tests, trace⟩ = ⟨code, tests + 1, trace⟩)
    (hexec : astExec callee ast (.run k, σ) = some (code, σ)) :
    ∃ c, StateTransition.Reaches₁ (astExec callee ast) (.run k, σ) (c, σ) ∧ Agrees ast p c := by
  obtain ⟨d, ⟨n, hn, rfl⟩, hm⟩ := h
  obtain ⟨n, rfl⟩ := Nat.exists_eq_succ_of_ne_zero (Nat.ne_of_gt hn)
  rw [Function.iterate_succ_apply, hstep] at hm
  exact ⟨_, .head' hexec (runs_of_quiet σ n hm.tests hm.trace), .of_matches hm⟩

end Tests

theorem runs_codeNodes {b : BasicBlock} {k : List HighLevelAst} {σ σ' : State}
    (h : execOps callee b.plainOps σ = some (σ', .fall)) :
    AstRuns callee ast (.run (codeNodes b ++ k), σ) (.run k, σ') := by
  rw [codeNodes]
  split
  case isTrue hnil =>
    rw [hnil] at h
    obtain ⟨rfl, -⟩ := Prod.mk.inj (Option.some.inj h)
    exact .refl
  case isFalse =>
    refine .single ?_
    rw [Option.mem_def, List.singleton_append, astExec, h]
    rfl

theorem exists_walk {flat : List LiftedInstruction} {g : Function} (hg : IsGraphOf flat g)
    (hflat : IsYielded g.entry flat) (hne : g.blocks ≠ []) :
    ∃ backEdges r, IsWalk flat g backEdges r := by
  obtain ⟨b, hb, hbe⟩ := exists_entry hg hflat hne
  obtain ⟨backEdges, r, hback, hfound, hregion, hexp, hast⟩ :=
    doStructure_eq_ok hg.linked ⟨b, hb, hbe⟩
  exact ⟨backEdges, r, hg, hflat, mem_starts.mpr ⟨b, hb, hbe⟩, hback, hfound, hregion, hexp, hast⟩

section Walk

variable {flat : List LiftedInstruction} {g : Function}
  {backEdges : Finset (Address × Address)} {r : Region} (hw : IsWalk flat g backEdges r)

include hw

theorem Placed.runs_behind {x : Context} {a : Address} {n : Region} {b : BasicBlock}
    {control : Control} {σ : State}
    (h : Placed (wrapNodes r.nodes) (fun _ => control ≠ .fall) g backEdges x a n)
    (hb : n.taken.head? = some b) (hsafe : Safe g.blocks r.labels x n (control ≠ .fall))
    (hcond : ∀ c t f, exitOf b = .cond c t f → (control ≠ .fall ↔ σ.read c ≠ 0)) :
    ∃ code, StateTransition.Reaches₁ (astExec callee (wrapNodes r.nodes))
        (.run (n.behind ++ x.rest), σ) (code, σ) ∧
      Agrees (wrapNodes r.nodes)
        ((exitOf b).step g.blocks (fun _ => control ≠ .fall) b 0 []).control code := by
  have hm := @Placed.matches_behind _ _ _ _ hw _ 0 [] _ _ _ _ h hb hsafe
  cases n with
  | skip | missing => cases hb
  | loop b cond t f next =>
    obtain rfl := Option.some.inj hb
    cases h.explores with
    | loop takes exit =>
      rw [exit] at hm ⊢
      refine hm.runs_test ?_ rfl
      by_cases hread : σ.read cond ≠ 0 <;> simp [Region.behind, hcond _ _ _ exit, hread]
  | doWhile b cond t f body =>
    obtain rfl := Option.some.inj hb
    cases h.explores with
    | doWhile takes exit =>
      rw [exit] at hm ⊢
      refine hm.runs_test ?_ rfl
      by_cases hread : σ.read cond ≠ 0 <;> simp [Region.behind, hcond _ _ _ exit, hread]
  | fork b cond t f body next =>
    obtain rfl := Option.some.inj hb
    cases h.explores with
    | fork takes exit =>
      rw [exit] at hm ⊢
      refine hm.runs_test ?_ rfl
      by_cases hread : σ.read cond ≠ 0 <;> simp [Region.behind, hcond _ _ _ exit, hread]
  | jump b target =>
    obtain rfl := Option.some.inj hb
    cases h.explores with
    | jump takes exit =>
      rcases exit with ⟨exit, -⟩ | ⟨exit | exit, -⟩
      all_goals
        rw [exit] at hm ⊢
        exact hm.runs σ
  | go b target next =>
    obtain rfl := Option.some.inj hb
    cases h.explores with
    | go takes exit =>
      rcases exit with ⟨exit, -⟩ | exit
      all_goals
        rw [exit] at hm ⊢
        exact hm.runs σ
  | ret b =>
    obtain rfl := Option.some.inj hb
    cases h.explores with
    | ret takes exit =>
      rw [exit] at hm ⊢
      exact hm.runs σ
  | stuck b =>
    obtain rfl := Option.some.inj hb
    cases h.explores with
    | stuck takes exit =>
      rw [exit] at hm ⊢
      exact hm.runs σ

variable (hlast : ∀ li ∈ flat, ∀ op ∈ li.ops.dropLast, op.isTerminator = false)

include hlast

/-- A safe step of the graph is matched by steps of the syntax tree to the same state. -/
theorem IsWalk.exec_step {a : Address} {b : BasicBlock} {σ σ' : State} {control : Control}
    (hfound : blockStarting g.blocks a = some b)
    (hexec : execOps callee b.ops σ = some (σ', control))
    (hsafe : SafeExec callee g (.block a, σ)) {c : Code}
    (hc : Agrees (wrapNodes r.nodes) (.block a) c) :
    ∃ c', StateTransition.Reaches₁ (astExec callee (wrapNodes r.nodes)) (c, σ) (c', σ') ∧
      Agrees (wrapNodes r.nodes) (placeAfter g.blocks a control) c' := by
  obtain ⟨k, hk, rfl⟩ := hc.block a rfl
  have hlabel : a ∈ r.labels := by
    by_contra hnot
    rw [afterLabel_wrapNodes, afterLabelIn_nodes_eq_none hnot] at hk
    cases hk
  obtain ⟨x, n, hs, hn⟩ := Region.exists_site .top hlabel
  have hplaced := @IsWalk.placed _ _ _ _ hw (fun _ => control ≠ .fall)
  obtain ⟨a', hn', hp⟩ := hplaced.site hs
  obtain rfl := Option.some.inj (hn.symm.trans hn')
  obtain rfl := Option.some.inj (hk.symm.trans (hp.labels x n (Region.self_mem_sites hn x) a hn))
  obtain ⟨hb, rfl⟩ := (blockStarting_eq_some hw.graph.nodup_starts).mp hfound
  have htaken : n.taken.head? = some b := by
    obtain ⟨b', hb', hstart⟩ : ∃ b', n.taken.head? = some b' ∧
        b'.startAddress = b.startAddress := by
      simpa [Region.head?, Region.labels] using hn
    have hmem := hp.explores.mem_of_mem_taken (List.mem_of_head? hb')
    rw [hb', hw.graph.cfg.eq_of_start hw.graph.nodup hmem hb hstart]
  obtain ⟨r', hr', hall⟩ := hsafe b σ' control rfl hb hexec
  obtain rfl := Except.ok.inj (hw.region.symm.trans hr')
  obtain ⟨hplain, hplace, hcond⟩ := exec_block hw.graph hw.yielded hlast hb hexec 0 []
  obtain ⟨c', hruns, hagrees⟩ := hp.runs_behind hw htaken (hall (x, n) hs (by rw [hn]; rfl)) hcond
  rw [hplace] at hagrees
  refine ⟨c', ?_, hagrees⟩
  rw [Region.tail_nodes htaken, List.append_assoc]
  exact .trans_right (runs_codeNodes hplain) hruns

theorem IsWalk.exec_runs {x y : Place × State} {c : Code}
    (hsafe : ∀ z, GraphRuns callee g.blocks x z → SafeExec callee g z)
    (hruns : GraphRuns callee g.blocks x y) (hc : Agrees (wrapNodes r.nodes) x.1 c) :
    ∃ c', AstRuns callee (wrapNodes r.nodes) (c, x.2) (c', y.2) ∧
      Agrees (wrapNodes r.nodes) y.1 c' := by
  induction hruns with
  | refl => exact ⟨c, .refl, hc⟩
  | @tail y z hruns hstep ih =>
    obtain ⟨d, hd, hagrees⟩ := ih
    obtain ⟨place, σ⟩ := y
    cases place with
    | left | finished => cases hstep
    | block a =>
      obtain ⟨b, hfound, hmap⟩ := Option.bind_eq_some_iff.mp hstep
      obtain ⟨⟨σ', control⟩, hexec, rfl⟩ := Option.map_eq_some_iff.mp hmap
      obtain ⟨c', hc', hagrees'⟩ := hw.exec_step hlast hfound hexec (hsafe _ hruns) hagrees
      exact ⟨c', hd.trans hc'.to_reflTransGen, hagrees'⟩

omit hlast in
theorem IsWalk.exec_start (σ : State) : ∃ c,
    AstRuns callee (wrapNodes r.nodes) (.run [wrapNodes r.nodes], σ) (c, σ) ∧
      Agrees (wrapNodes r.nodes) (.block g.entry) c := by
  have hplaced := @IsWalk.placed _ _ _ _ hw (fun _ => false)
  have hleads := hplaced.leads_nodes
  have hhead := hplaced.leadsTo hw.entry (Finset.notMem_empty _)
  rw [hhead] at hleads
  have hentry : g.entry ∈ r.labels := by
    apply List.mem_of_head?
    rwa [Region.leadsTo, Context.top, Option.or_none] at hhead
  have hmatches : MatchesFrom (wrapNodes r.nodes) (fun _ => false) [wrapNodes r.nodes] 0 []
      ⟨.block g.entry, 0, []⟩ :=
    (reaches_wrapNodes r.nodes).exists_plus (hleads.matches_block (hw.isSome_afterLabel hentry))
  obtain ⟨c, hruns, hagrees⟩ := hmatches.runs σ
  exact ⟨c, hruns.to_reflTransGen, hagrees⟩

end Walk

/-- The machine that executes operations one by one is in a block that the run has come to. -/
structure Within (callee : BranchTarget → State → State) (bs : List BasicBlock)
    (x : Place × State) (c : Cfg.Config) : Prop where
  exists_start : ∃ b σ, GraphRuns callee bs x (.block b.startAddress, σ) ∧ c.In bs b ∧
    execOps callee (b.ops.take c.done) σ = some (c.state, .fall)

theorem within_start {bs : List BasicBlock} {b : BasicBlock} (hb : b ∈ bs) (σ : State) :
    Within callee bs (.block b.startAddress, σ) ⟨b.startAddress, 0, σ⟩ :=
  ⟨b, σ, .refl, ⟨hb, rfl, Nat.zero_le _, by simp⟩, rfl⟩

theorem Within.of_runs {bs : List BasicBlock} {x y : Place × State} {c : Cfg.Config}
    (h : Within callee bs y c) (hruns : GraphRuns callee bs x y) : Within callee bs x c := by
  obtain ⟨b, σ, hruns', h⟩ := h.exists_start
  exact ⟨b, σ, hruns.trans hruns', h⟩

theorem execOps_append_of_fall {ops rest : List Instruction} {σ σ' : State}
    (h : execOps callee ops σ = some (σ', .fall)) :
    execOps callee (ops ++ rest) σ = execOps callee rest σ' := by
  induction ops generalizing σ with
  | nil =>
    obtain ⟨rfl, -⟩ := Prod.mk.inj (Option.some.inj h)
    rfl
  | cons op ops ih =>
    rw [List.cons_append, execOps]
    rw [execOps] at h
    cases hcontrol : op.control σ with
    | fall =>
      rw [hcontrol] at h
      obtain ⟨σ₁, hop, h⟩ := Option.bind_eq_some_iff.mp h
      rw [hop]
      exact ih h
    | jump target =>
      rw [hcontrol] at h
      cases h
    | stop =>
      rw [hcontrol] at h
      cases h

section Function

variable {flat : List LiftedInstruction} {g : Function} (hg : IsGraphOf flat g)
  (hlast : ∀ li ∈ flat, ∀ op ∈ li.ops.dropLast, op.isTerminator = false)

include hg hlast

/-- The syntax tree follows a run of the graph whose steps are safe, state for state. -/
theorem exec_of_safe (hflat : IsYielded g.entry flat) (hne : g.blocks ≠ []) {σ : State}
    (hsafe : ∀ z, GraphRuns callee g.blocks (.block g.entry, σ) z → SafeExec callee g z) :
    ∃ ast, doStructure g = .ok ast ∧ ∀ y, GraphRuns callee g.blocks (.block g.entry, σ) y →
      ∃ c, AstRuns callee ast (.run [ast], σ) (c, y.2) ∧ Agrees ast y.1 c := by
  obtain ⟨backEdges, r, hw⟩ := exists_walk hg hflat hne
  refine ⟨_, hw.ast, fun y hruns => ?_⟩
  obtain ⟨c, hstart, hc⟩ := @IsWalk.exec_start callee _ _ _ _ hw σ
  obtain ⟨c', hc', hagrees⟩ := hw.exec_runs hlast hsafe hruns hc
  exact ⟨c', hstart.trans hc', hagrees⟩

theorem Within.transfer {x : Place × State} {c : Cfg.Config} (h : Within callee g.blocks x c)
    {op : Instruction} (hop : opAt g.blocks c = some op) {control : Control}
    (hcontrol : op.control c.state = control) (hne : control ≠ .fall) :
    GraphRuns callee g.blocks x (placeAfter g.blocks c.block control, c.state) := by
  obtain ⟨b, σ, hruns, hin, hexec⟩ := h.exists_start
  have hfound : blockStarting g.blocks b.startAddress = some b :=
    (blockStarting_eq_some hg.nodup_starts).mpr ⟨hin.mem, rfl⟩
  rw [opAt, ← hin.start, hfound, Option.bind_some] at hop
  have hterm : op.isTerminator := by
    cases op with
    | branch | cbranch | ret => rfl
    | _ => exact absurd hcontrol.symm hne
  have hops : b.ops = b.ops.take c.done ++ [op] := by
    have hlen := hg.cfg.getLast?_ops hlast hin.mem hop hterm
    have htake : b.ops.take (c.done + 1) = b.ops := List.take_of_length_le (by omega)
    rwa [List.take_add_one, hop, Option.toList_some, eq_comm] at htake
  have hblock : execOps callee b.ops σ = some (c.state, control) := by
    rw [hops, execOps_append_of_fall hexec, execOps, hcontrol]
    cases control with
    | fall => exact absurd rfl hne
    | jump | stop => rfl
  have hgraph := graphExec_eq hfound hblock
  rw [hin.start] at hgraph hruns
  exact hruns.tail hgraph

theorem Within.step {x : Place × State} {c c' : Cfg.Config} (h : Within callee g.blocks x c)
    (hstep : Cfg.step callee g.blocks c = some c') : Within callee g.blocks x c' := by
  obtain ⟨b, σ, hruns, hin, hexec⟩ := h.exists_start
  have hfound : blockStarting g.blocks b.startAddress = some b :=
    (blockStarting_eq_some hg.nodup_starts).mpr ⟨hin.mem, rfl⟩
  have hat : opAt g.blocks c = b.ops[c.done]? := by
    rw [opAt, ← hin.start, hfound, Option.bind_some]
  cases hop : b.ops[c.done]? with
  | none =>
    have hdone : b.ops.length ≤ c.done := List.getElem?_eq_none_iff.mp hop
    rw [List.take_of_length_le hdone] at hexec
    rw [Cfg.step, ← hin.start, hfound, Option.bind_some, hop] at hstep
    obtain ⟨d, hd, hnext, rfl⟩ := (enter_eq_some hg.nodup_starts).mp hstep
    have hgraph := graphExec_eq hfound hexec
    rw [placeAfter, fallFrom, hnext] at hgraph
    exact (within_start hd c.state).of_runs (hruns.tail hgraph)
  | some op =>
    rw [hop] at hat
    cases hcontrol : op.control c.state with
    | fall =>
      rw [step_of_fall hat hcontrol] at hstep
      obtain ⟨σ', hσ', rfl⟩ := Option.map_eq_some_iff.mp hstep
      have htake : b.ops.take (c.done + 1) = b.ops.take c.done ++ [op] := by
        rw [List.take_add_one, hop, Option.toList_some]
      refine ⟨b, σ, hruns, ⟨hin.mem, hin.start, (List.getElem?_eq_some_iff.mp hop).1, ?_⟩, ?_⟩
      · rw [htake]
        intro o ho
        rcases List.mem_append.mp ho with ho | ho
        · exact hin.fell o ho
        · exact List.mem_singleton.mp ho ▸ Instruction.mayFall_of_control hcontrol
      · rw [htake, execOps_append_of_fall hexec, execOps, hcontrol, hσ']
        rfl
    | jump target =>
      rw [step_of_jump hat hcontrol] at hstep
      obtain ⟨d, hd, htarget, rfl⟩ := (enter_eq_some hg.nodup_starts).mp hstep
      have hgraph := h.transfer hg hlast hat hcontrol (by intro h; cases h)
      cases target with
      | indirect => cases htarget
      | absolute t =>
        obtain rfl := Option.some.inj htarget
        rw [placeAfter, branchTo, if_pos (mem_starts.mpr ⟨d, hd, rfl⟩)] at hgraph
        exact (within_start hd c.state).of_runs hgraph
    | stop =>
      rw [step_of_stop hat hcontrol] at hstep
      cases hstep

theorem Within.run {x : Place × State} {c c' : Cfg.Config} (h : Within callee g.blocks x c)
    (hruns : RunsTo callee g.blocks c c') : Within callee g.blocks x c' := by
  obtain ⟨n, hn⟩ := hruns
  induction n generalizing c' with
  | zero => exact Option.some.inj hn ▸ h
  | succ n ih =>
    obtain ⟨d, hd, hstep⟩ := Option.bind_eq_some_iff.mp hn
    exact (ih hd).step hg hlast hstep

end Function

end Decompiler.Structurer
