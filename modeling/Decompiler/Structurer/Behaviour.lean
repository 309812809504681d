import Decompiler.Structurer.Kept

/-! # Behaviours of graphs and syntax trees

What a machine performs and how it ends. A run of the graph whose steps are safe and the
run of the syntax tree with the same outcomes perform the same operations, finish
together and leave the function at the same address.
-/

namespace Decompiler.Structurer

open Cfg Simulation

/-- The machine performs the operations, possibly followed by others. -/
def Performs {κ : Type} (run : ℕ → Config κ) (ops : List Instruction) : Prop :=
  ∃ n, ops <+: (run n).trace

def EndsIn {κ : Type} (run : ℕ → Config κ) (control : κ) (ops : List Instruction) : Prop :=
  ∃ n, (run n).control = control ∧ (run n).trace = ops

/-- The graph and the syntax tree behave alike on the outcomes. -/
structure SameBehaviour (g : Function) (ast : HighLevelAst) (outcomes : ℕ → Bool) : Prop where
  performs : ∀ ops, Performs (graphRun g outcomes) ops ↔ Performs (astRun ast outcomes) ops
  finishes : ∀ ops, EndsIn (graphRun g outcomes) .finished ops ↔
    EndsIn (astRun ast outcomes) .finished ops

instance Code.decidableEqFinished (c : Code) : Decidable (c = .finished) :=
  match c with
  | .finished => isTrue rfl
  | .run _ | .left _ => isFalse nofun

theorem Code.ne_run_of_finished {c : Code} (h : c = .finished) (k : List HighLevelAst) :
    c ≠ .run k := h ▸ nofun

theorem Code.ne_run_of_left {c : Code} {a : Address} (h : c = .left a) (k : List HighLevelAst) :
    c ≠ .run k := h ▸ nofun

section Runs

variable {g : Function} {ast : HighLevelAst} {outcomes : ℕ → Bool}

theorem astRun_add (n m : ℕ) :
    astRun ast outcomes (m + n) = (astStep ast outcomes)^[m] (astRun ast outcomes n) :=
  Function.iterate_add_apply _ m n _

theorem graphRun_add (n m : ℕ) :
    graphRun g outcomes (m + n) = (graphStep g.blocks outcomes)^[m] (graphRun g outcomes n) :=
  Function.iterate_add_apply _ m n _

theorem graphRun_eq_of_finished {n m : ℕ} (h : (graphRun g outcomes n).control = .finished)
    (hnm : n ≤ m) : graphRun g outcomes m = graphRun g outcomes n := by
  obtain ⟨k, rfl⟩ := Nat.exists_eq_add_of_le' hnm
  rw [graphRun_add]
  refine Function.iterate_fixed ?_ k
  rw [graphStep, h]

theorem astRun_eq_of_ended {n m : ℕ} (h : ∀ k, (astRun ast outcomes n).control ≠ .run k)
    (hnm : n ≤ m) : astRun ast outcomes m = astRun ast outcomes n := by
  obtain ⟨k, rfl⟩ := Nat.exists_eq_add_of_le' hnm
  rw [astRun_add]
  refine Function.iterate_fixed ?_ k
  cases hc : (astRun ast outcomes n).control with
  | run nodes => exact absurd hc (h nodes)
  | left a => rw [astStep, hc]
  | finished => rw [astStep, hc]

theorem trace_prefix_astStep (c : Config Code) : c.trace <+: (astStep ast outcomes c).trace := by
  obtain ⟨control, tests, trace⟩ := c
  cases control with
  | left a => exact List.prefix_rfl
  | finished => exact List.prefix_rfl
  | run nodes =>
    cases nodes with
    | nil => exact List.prefix_rfl
    | cons node k =>
      cases node with
      | block a ops => exact List.prefix_append _ _
      | _ => exact List.prefix_rfl

theorem trace_prefix_astRun {n m : ℕ} (hnm : n ≤ m) :
    (astRun ast outcomes n).trace <+: (astRun ast outcomes m).trace := by
  induction hnm with
  | refl => exact List.prefix_rfl
  | step _ ih =>
    rw [Nat.succ_eq_one_add, astRun_add]
    exact ih.trans (trace_prefix_astStep _)

/-- The operations after which a syntax tree ends are determined. -/
theorem endsIn_unique {n : ℕ} (h : ∀ k, (astRun ast outcomes n).control ≠ .run k)
    {control : Code} (hcontrol : ∀ k, control ≠ .run k) {ops : List Instruction}
    (hends : EndsIn (astRun ast outcomes) control ops) :
    (astRun ast outcomes n).control = control ∧ (astRun ast outcomes n).trace = ops := by
  obtain ⟨m, rfl, rfl⟩ := hends
  rcases Nat.le_total n m with hnm | hmn
  · rw [astRun_eq_of_ended h hnm]
    exact ⟨rfl, rfl⟩
  · rw [astRun_eq_of_ended hcontrol hmn]
    exact ⟨rfl, rfl⟩

/-- Runs that match at ever later points behave alike. -/
theorem sameBehaviour_of_matches (h : ∀ n, ∃ m, n ≤ m ∧
    Matches ast (graphRun g outcomes n) (astRun ast outcomes m)) :
    SameBehaviour g ast outcomes := by
  refine ⟨fun ops => ⟨?_, ?_⟩, fun ops => ⟨?_, ?_⟩⟩
  · rintro ⟨n, hops⟩
    obtain ⟨m, -, hm⟩ := h n
    exact ⟨m, hm.trace ▸ hops⟩
  · rintro ⟨m, hops⟩
    obtain ⟨m', hmm', hm⟩ := h m
    exact ⟨m, hm.trace ▸ hops.trans (trace_prefix_astRun hmm')⟩
  · rintro ⟨n, hend, hops⟩
    obtain ⟨m, -, hm⟩ := h n
    exact ⟨m, hm.finished hend, hm.trace.trans hops⟩
  · rintro ⟨m, hend, hops⟩
    obtain ⟨m', hmm', hm⟩ := h m
    rw [astRun_eq_of_ended (Code.ne_run_of_finished hend) hmm'] at hm
    refine ⟨m, ?_, hm.trace.symm.trans hops⟩
    cases hc : (graphRun g outcomes m).control with
    | finished => rfl
    | block a =>
      obtain ⟨k, -, hk⟩ := hm.block a hc
      rw [hend] at hk
      cases hk
    | left a =>
      have hleft := hm.left a hc
      rw [hend] at hleft
      cases hleft

end Runs

section Walk

variable {flat : List LiftedInstruction} {g : Function}
  {backEdges : Finset (Address × Address)} {r : Region} (hw : IsWalk flat g backEdges r)
  (hlast : ∀ li ∈ flat, ∀ op ∈ li.ops.dropLast, op.isTerminator = false)
  {outcomes : ℕ → Bool}

include hw hlast

/-- A safe step of the graph is matched by steps of the syntax tree. -/
theorem IsWalk.matches_step {c : Config Place} {d : Config Code}
    (hm : Matches (wrapNodes r.nodes) c d) (hsafe : SafeAt g outcomes c) : ∃ d',
      ReachesPlus (astStep (wrapNodes r.nodes) outcomes) d d' ∧
        Matches (wrapNodes r.nodes) (graphStep g.blocks outcomes c) d' := by
  obtain ⟨control, tests, trace⟩ := c
  obtain ⟨code, tests', trace'⟩ := d
  obtain rfl : tests' = tests := hm.tests
  obtain rfl : trace' = trace := hm.trace
  cases control with
  | block a =>
    obtain ⟨k, hk, rfl⟩ := hm.block a rfl
    have hlabel : a ∈ r.labels := by
      by_contra hnot
      rw [afterLabel_wrapNodes, afterLabelIn_nodes_eq_none hnot] at hk
      cases hk
    obtain ⟨y, n, hs, hn⟩ := Region.exists_site .top hlabel
    obtain ⟨a', hn', hp⟩ := hw.placed.site hs
    obtain rfl := Option.some.inj (hn.symm.trans hn')
    obtain rfl := Option.some.inj (hk.symm.trans (hp.labels y n (Region.self_mem_sites hn y) a hn))
    obtain ⟨r', hr', hall⟩ := hsafe
    obtain rfl := Except.ok.inj (hw.region.symm.trans hr')
    exact hp.exists_matches hw hlast hn (hall (y, n) hs (by rw [hn]; rfl))
  | left a =>
    obtain rfl := hm.left a rfl
    exact ⟨_, .single rfl, hm⟩
  | finished =>
    obtain rfl := hm.finished rfl
    exact ⟨_, .single rfl, hm⟩

theorem IsWalk.matches_run {n : ℕ}
    (hsafe : ∀ i < n, SafeAt g outcomes (graphRun g outcomes i)) : ∃ m, n ≤ m ∧
      Matches (wrapNodes r.nodes) (graphRun g outcomes n)
        (astRun (wrapNodes r.nodes) outcomes m) := by
  have hplaced : Placed (wrapNodes r.nodes) outcomes g backEdges .top g.entry r := hw.placed
  have hleads := hplaced.leads_nodes
  have hhead := hplaced.leadsTo hw.entry (Finset.notMem_empty _)
  rw [hhead] at hleads
  have hentry : g.entry ∈ r.labels := by
    apply List.mem_of_head?
    rwa [Region.leadsTo, Context.top, Option.or_none] at hhead
  obtain ⟨d, ⟨k, -, rfl⟩, hm⟩ := (reaches_wrapNodes r.nodes).exists_plus
    (hleads.matches_block (hw.isSome_afterLabel hentry))
  have hne : g.blocks ≠ [] := by
    rintro hnil
    have hstart := hw.entry
    rw [hnil] at hstart
    cases hstart
  have hstart : graphRun g outcomes 0 = ⟨.block g.entry, 0, []⟩ := by
    rw [graphRun, if_neg hne]
    rfl
  obtain ⟨m, hnm, hrun⟩ := exists_iterate (fun _ _ hm hsafe => hw.matches_step hlast hm hsafe)
    hm n (by simpa only [graphRun, if_neg hne] using hsafe)
  refine ⟨m + k, by omega, ?_⟩
  rw [graphRun, if_neg hne, astRun_add]
  exact hrun

end Walk

variable {name : String} {entry : Address} {flat : List LiftedInstruction} {g : Function}

theorem matches_of_safe (hflat : IsYielded entry flat)
    (hlast : ∀ li ∈ flat, ∀ op ∈ li.ops.dropLast, op.isTerminator = false)
    (hg : build (.ofStream name entry flat) = .ok g) :
    ∃ ast, doStructure g = .ok ast ∧ ∀ outcomes n,
      (∀ i < n, SafeAt g outcomes (graphRun g outcomes i)) →
        ∃ m, n ≤ m ∧ Matches ast (graphRun g outcomes n) (astRun ast outcomes m) := by
  rcases (walk_of_build hflat hg).2 with ⟨hnil, hast, -⟩ | ⟨backEdges, r, hw⟩
  · refine ⟨_, hast, fun outcomes n _ => ⟨n + 2, by omega, ?_⟩⟩
    have hgraph : graphRun g outcomes n = ⟨.finished, 0, []⟩ := by
      rw [graphRun, if_pos hnil]
      exact Function.iterate_fixed rfl n
    have hend : astRun (.seq []) outcomes 2 = ⟨.finished, 0, []⟩ := rfl
    rw [hgraph, astRun_eq_of_ended (Code.ne_run_of_finished (congrArg Config.control hend))
      (Nat.le_add_left 2 n), hend]
    exact ⟨rfl, rfl, nofun, nofun, fun _ => rfl⟩
  · exact ⟨_, hw.ast, fun outcomes n hsafe => hw.matches_run hlast hsafe⟩

/-- The syntax tree behaves as the graph on outcomes for which every step of the graph is
safe. -/
theorem sameBehaviour_of_safe (hflat : IsYielded entry flat)
    (hlast : ∀ li ∈ flat, ∀ op ∈ li.ops.dropLast, op.isTerminator = false)
    (hg : build (.ofStream name entry flat) = .ok g) :
    ∃ ast, doStructure g = .ok ast ∧ ∀ outcomes,
      (∀ n, SafeAt g outcomes (graphRun g outcomes n)) → SameBehaviour g ast outcomes := by
  obtain ⟨ast, hast, hmatches⟩ := matches_of_safe hflat hlast hg
  refine ⟨ast, hast, fun outcomes hsafe => ?_⟩
  exact sameBehaviour_of_matches fun n => hmatches outcomes n fun i _ => hsafe i

/-- The syntax tree behaves as the graph if the walk closes no loop whose head is still before it
and keeps the edge that the graph takes at every step. -/
theorem sameBehaviour_of_keepsEdges (hflat : IsYielded entry flat)
    (hlast : ∀ li ∈ flat, ∀ op ∈ li.ops.dropLast, op.isTerminator = false)
    (hg : build (.ofStream name entry flat) = .ok g) :
    ∃ ast, doStructure g = .ok ast ∧ ∀ outcomes, ClosesLoops g →
      (∀ n, KeepsAt g outcomes (graphRun g outcomes n)) → SameBehaviour g ast outcomes := by
  obtain ⟨ast, hast, hsame⟩ := sameBehaviour_of_safe hflat hlast hg
  refine ⟨ast, hast, fun outcomes hclosed hkeeps => hsame outcomes fun n => ?_⟩
  exact safeAt_of_keepsAt hflat hg hclosed (hkeeps n)

/-- `jmp` into a loop, `je` out of it, `jmp` back, `ret`. -/
def rotatedLoop : List UInt8 := [0xEB, 0x02, 0x74, 0x02, 0xEB, 0xFC, 0xC3]

/-- The second test succeeds. -/
theorem sameBehaviour_of_keepsEdges_rotatedLoop :
    ∃ f, Arch.x86.processFunction "input" rotatedLoop 0x1000 = .ok f ∧
      ∃ g, build f = .ok g ∧ ∃ ast, doStructure g = .ok ast ∧
        SameBehaviour g ast fun n => n == 1 := by
  have hrun : ∃ f, Arch.x86.processFunction "input" rotatedLoop 0x1000 = .ok f ∧
      ∃ g, build f = .ok g ∧ ClosesLoops g ∧
        (graphRun g (fun n => n == 1) 6).control = .finished ∧
          ∀ n ∈ List.range 7, KeepsAt g (fun n => n == 1) (graphRun g (fun n => n == 1) n) := by
    decide +kernel
  obtain ⟨f, hf, g, hg, hclosed, hend, hkeeps⟩ := hrun
  obtain ⟨flat, rfl, hflat⟩ := Arch.processFunction_eq_ok hf
  obtain ⟨ast, hast, h⟩ := sameBehaviour_of_keepsEdges hflat.isYielded
    (fun li hli => (hflat.shaped li hli).terminator_last) hg
  refine ⟨_, hf, g, hg, ast, hast, h _ hclosed fun n => ?_⟩
  rcases Nat.lt_or_ge n 6 with hn | hn
  · exact hkeeps n (List.mem_range.mpr (by omega))
  · rw [graphRun_eq_of_finished hend hn]
    exact hkeeps 6 (List.mem_range.mpr (by omega))

/-- `je` to the next instruction, `mov eax, 1`, `ret`. -/
def jumpToNext : List UInt8 := [0x74, 0x00, 0xB8, 0x01, 0x00, 0x00, 0x00, 0xC3]

/-- When the condition fails the graph moves 1 to `eax` and the syntax tree does not. -/
theorem not_sameBehaviour_jumpToNext :
    ∃ f, Arch.x86.processFunction "input" jumpToNext 0x1000 = .ok f ∧
      ∃ g, build f = .ok g ∧
        (∀ b ∈ g.blocks, ∀ op ∈ b.ops, ∀ a ∈ op.branchTarget?, a ∈ starts g.blocks) ∧
        ∃ ast, doStructure g = .ok ast ∧ ¬ SameBehaviour g ast fun _ => false := by
  have hrun : ∃ f, Arch.x86.processFunction "input" jumpToNext 0x1000 = .ok f ∧
      ∃ g, build f = .ok g ∧
        (∀ b ∈ g.blocks, ∀ op ∈ b.ops, op.branchTarget?.all (· ∈ starts g.blocks)) ∧
        ((graphRun g (fun _ => false) 2).control = .finished ∧
          (graphRun g (fun _ => false) 2).trace ≠ []) ∧
        ∃ ast, doStructure g = .ok ast ∧
          ((astRun ast (fun _ => false) 4).control = .finished ∧
            (astRun ast (fun _ => false) 4).trace = []) := by
    decide +kernel
  obtain ⟨f, hf, g, hg, hclosed, ⟨hend, htrace⟩, ast, hast, hend', htrace'⟩ := hrun
  refine ⟨f, hf, g, hg, fun b hb op hop a ha => ?_, ast, hast, fun h => htrace ?_⟩
  · have hall := hclosed b hb op hop
    rwa [Option.mem_def.mp ha, Option.all_some, decide_eq_true_iff] at hall
  obtain ⟨-, heq⟩ := endsIn_unique (Code.ne_run_of_finished hend') (Code.ne_run_of_finished rfl)
    ((h.finishes _).mp ⟨2, hend, rfl⟩)
  rw [← heq, htrace']

/-- The syntax tree leaves the function where the graph does if every step of the graph up
to there is safe. -/
theorem leaves_of_safe (hflat : IsYielded entry flat)
    (hlast : ∀ li ∈ flat, ∀ op ∈ li.ops.dropLast, op.isTerminator = false)
    (hg : build (.ofStream name entry flat) = .ok g) :
    ∃ ast, doStructure g = .ok ast ∧ ∀ outcomes n a,
      (∀ i < n, SafeAt g outcomes (graphRun g outcomes i)) →
        (graphRun g outcomes n).control = .left a → ∃ m,
          (astRun ast outcomes m).control = .left a ∧
            (astRun ast outcomes m).tests = (graphRun g outcomes n).tests ∧
              (astRun ast outcomes m).trace = (graphRun g outcomes n).trace := by
  obtain ⟨ast, hast, hmatches⟩ := matches_of_safe hflat hlast hg
  refine ⟨ast, hast, fun outcomes n a hsafe hleft => ?_⟩
  obtain ⟨m, -, hm⟩ := hmatches outcomes n hsafe
  exact ⟨m, hm.left a hleft, hm.tests, hm.trace⟩

/-- The syntax tree leaves the function where the graph does if the walk closes no loop whose
head is still before it and keeps the edge that the graph takes at every step up to there. -/
theorem leaves_of_keepsEdges (hflat : IsYielded entry flat)
    (hlast : ∀ li ∈ flat, ∀ op ∈ li.ops.dropLast, op.isTerminator = false)
    (hg : build (.ofStream name entry flat) = .ok g) :
    ∃ ast, doStructure g = .ok ast ∧ ∀ outcomes n a, ClosesLoops g →
      (∀ i < n, KeepsAt g outcomes (graphRun g outcomes i)) →
        (graphRun g outcomes n).control = .left a → ∃ m,
          (astRun ast outcomes m).control = .left a ∧
            (astRun ast outcomes m).tests = (graphRun g outcomes n).tests ∧
              (astRun ast outcomes m).trace = (graphRun g outcomes n).trace := by
  obtain ⟨ast, hast, hleaves⟩ := leaves_of_safe hflat hlast hg
  refine ⟨ast, hast, fun outcomes n a hclosed hkeeps hleft => ?_⟩
  refine hleaves outcomes n a (fun i hi => ?_) hleft
  exact safeAt_of_keepsAt hflat hg hclosed (hkeeps i hi)

/-- The first condition fails and the graph jumps out of the function to `0x1024`. -/
theorem leaves_of_keepsEdges_sharedTailJump :
    ∃ f, Arch.x86.processFunction "input" sharedTailJump 0x1000 = .ok f ∧
      ∃ g, build f = .ok g ∧ ∃ ast, doStructure g = .ok ast ∧
        ∃ m, (astRun ast (fun _ => false) m).control = .left 0x1024 := by
  have hrun : ∃ f, Arch.x86.processFunction "input" sharedTailJump 0x1000 = .ok f ∧
      ∃ g, build f = .ok g ∧ ClosesLoops g ∧
        (graphRun g (fun _ => false) 2).control = .left 0x1024 ∧
          ∀ n ∈ List.range 2, KeepsAt g (fun _ => false) (graphRun g (fun _ => false) n) := by
    decide +kernel
  obtain ⟨f, hf, g, hg, hclosed, hleft, hkeeps⟩ := hrun
  obtain ⟨flat, rfl, hflat⟩ := Arch.processFunction_eq_ok hf
  obtain ⟨ast, hast, h⟩ := leaves_of_keepsEdges hflat.isYielded
    (fun li hli => (hflat.shaped li hli).terminator_last) hg
  obtain ⟨m, hm, -⟩ := h _ 2 _ hclosed (fun i hi => hkeeps i (List.mem_range.mpr hi)) hleft
  exact ⟨_, hf, g, hg, ast, hast, m, hm⟩

/-- `je` out of the function to `0x1080`, `ret`. -/
def externalBranch : List UInt8 := [0x74, 0x7E, 0xC3]

/-- When the condition holds the graph leaves the function and the syntax tree returns. -/
theorem not_leaves_externalBranch :
    ∃ f, Arch.x86.processFunction "input" externalBranch 0x1000 = .ok f ∧
      ∃ g, build f = .ok g ∧ (graphRun g (fun _ => true) 1).control = .left 0x1080 ∧
        ∃ ast, doStructure g = .ok ast ∧
          ∀ m, (astRun ast (fun _ => true) m).control ≠ .left 0x1080 := by
  have hrun : ∃ f, Arch.x86.processFunction "input" externalBranch 0x1000 = .ok f ∧
      ∃ g, build f = .ok g ∧ (graphRun g (fun _ => true) 1).control = .left 0x1080 ∧
        ∃ ast, doStructure g = .ok ast ∧
          (astRun ast (fun _ => true) 8).control = .finished := by
    decide +kernel
  obtain ⟨f, hf, g, hg, hleft, ast, hast, hend⟩ := hrun
  refine ⟨f, hf, g, hg, hleft, ast, hast, fun m hm => ?_⟩
  obtain ⟨hctl, -⟩ := endsIn_unique (Code.ne_run_of_finished hend) (Code.ne_run_of_left rfl)
    ⟨m, hm, rfl⟩
  rw [hend] at hctl
  cases hctl

end Decompiler.Structurer
