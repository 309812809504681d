import Decompiler.Structurer.Sites

/-! # Runs of the structured program

The syntax tree follows the graph, step for step, as long as the walk has not dropped
the edge that the graph takes. What it drops depends on what the walk has seen at the
block and on where the text behind its region leads.
-/

namespace Decompiler.Structurer

open Cfg Simulation

section Safe

variable (bs : List BasicBlock) (labels : List Address)

/-- A condition that fails: the next block is not the target, too, and the walk has not
seen it; or there is no next block and the text leads to the end. -/
def FallsSafely (b : BasicBlock) (t : Address) (seen : Finset Address)
    (fall : Option Address) : Prop :=
  match nextAfter bs b.startAddress with
  | some n => n ≠ t ∧ n ∈ labels ∧ n ∉ seen
  | none => fall = none

/-- The text goes where the graph goes from the end of a block. -/
def Safe (x : Context) : Region → Bool → Prop
  | .loop _ _ t _ _, true => t ∈ labels
  | .loop b _ t _ _, false =>
    FallsSafely bs labels b t (insert b.startAddress x.seen) x.fall
  | .doWhile b _ t _ _, true | .fork b _ t _ _ _, true =>
    t ∈ labels ∧ t ∉ insert b.startAddress x.seen
  | .doWhile _ _ _ f _, false => f ∈ labels
  | .fork b _ t _ body _, false =>
    FallsSafely bs labels b t (insert b.startAddress x.seen ∪ body.visits) x.fall
  | .jump _ a, _ => a ∈ starts bs → a ∈ labels
  | .go _ a _, _ => a ∈ labels
  | .stuck _, _ => x.fall = none
  | .ret _, _ | .skip, _ | .missing _, _ => True

instance (b : BasicBlock) (t : Address) (seen : Finset Address) (fall : Option Address) :
    Decidable (FallsSafely bs labels b t seen fall) := by
  unfold FallsSafely
  split <;> infer_instance

instance (x : Context) (r : Region) (taken : Bool) : Decidable (Safe bs labels x r taken) := by
  unfold Safe
  split <;> infer_instance

end Safe

def SafeAt (g : Function) (outcomes : ℕ → Bool) (c : Config Place) : Prop :=
  ∃ r, regionOf g = .ok r ∧ ∀ p ∈ r.sites .top, p.2.head?.map Place.block = some c.control →
    Safe g.blocks r.labels p.1 p.2 (outcomes c.tests)

instance (g : Function) (outcomes : ℕ → Bool) (c : Config Place) :
    Decidable (SafeAt g outcomes c) := by
  unfold SafeAt
  infer_instance

/-- The states of the two machines, with the text behind the label of the block. -/
structure Matches (ast : HighLevelAst) (c : Config Place) (d : Config Code) : Prop where
  tests : d.tests = c.tests
  trace : d.trace = c.trace
  block : ∀ a, c.control = .block a → ∃ k, afterLabel a [] ast = some k ∧ d.control = .run k
  left : ∀ a, c.control = .left a → d.control = .left a
  finished : c.control = .finished → d.control = .finished

section Steps

variable (ast : HighLevelAst) (outcomes : ℕ → Bool) {tests : ℕ} {trace : List Instruction}
  {k : List HighLevelAst}

/-- From some text the syntax tree comes, in at least one step, to a state that matches. -/
def MatchesFrom (k : List HighLevelAst) (tests : ℕ) (trace : List Instruction)
    (c : Config Place) : Prop :=
  ∃ d, ReachesPlus (astStep ast outcomes) ⟨.run k, tests, trace⟩ d ∧ Matches ast c d

variable {ast outcomes}

theorem reaches_codeNodes (b : BasicBlock) :
    Reaches (astStep ast outcomes) ⟨.run (codeNodes b ++ k), tests, trace⟩
      ⟨.run k, tests, trace ++ b.plainOps⟩ := by
  rw [codeNodes]
  split
  case isTrue h =>
    rw [h, List.append_nil]
    exact .refl _
  case isFalse => exact (ReachesPlus.single rfl).reaches

theorem reaches_wrapNodes (nodes : List HighLevelAst) :
    Reaches (astStep ast outcomes) ⟨.run (wrapNodes nodes :: k), tests, trace⟩
      ⟨.run (nodes ++ k), tests, trace⟩ := by
  match nodes with
  | [] => exact (ReachesPlus.single rfl).reaches
  | [node] => exact .refl _
  | _ :: _ :: _ => exact (ReachesPlus.single rfl).reaches

theorem Leads.matches_block {a : Address} (h : Leads ast outcomes k (some a))
    (ha : (afterLabel a [] ast).isSome) :
    MatchesFrom ast outcomes k tests trace ⟨.block a, tests, trace⟩ := by
  obtain ⟨k', hk'⟩ := Option.isSome_iff_exists.mp ha
  refine ⟨_, h k' hk' tests trace, rfl, rfl, ?_, nofun, nofun⟩
  rintro a' ha'
  obtain rfl := Place.block.inj ha'
  exact ⟨k', hk', rfl⟩

theorem matches_finished :
    Matches ast ⟨.finished, tests, trace⟩ ⟨.finished, tests, trace⟩ :=
  ⟨rfl, rfl, nofun, nofun, fun _ => rfl⟩

theorem matches_left (a : Address) :
    Matches ast ⟨.left a, tests, trace⟩ ⟨.left a, tests, trace⟩ := by
  refine ⟨rfl, rfl, nofun, ?_, nofun⟩
  rintro a' ha'
  obtain rfl := Place.left.inj ha'
  rfl

theorem Leads.matches_finished (h : Leads ast outcomes k none) :
    MatchesFrom ast outcomes k tests trace ⟨.finished, tests, trace⟩ :=
  ⟨_, h tests trace, Structurer.matches_finished⟩

end Steps

def Exit.step (bs : List BasicBlock) (outcomes : ℕ → Bool) (b : BasicBlock) (tests : ℕ)
    (trace : List Instruction) : Exit → Config Place
  | .cond _ t _ =>
    ⟨bif outcomes tests then branchTo bs t else fallFrom bs b.startAddress, tests + 1, trace⟩
  | .jump t => ⟨branchTo bs t, tests, trace⟩
  | .next a => ⟨.block a, tests, trace⟩
  | .ret | .none => ⟨.finished, tests, trace⟩

/-- What a region emits behind the code of its first block. -/
def Region.behind : Region → List HighLevelAst
  | skip | missing _ | stuck _ => []
  | loop _ cond t _ next => .whileDo cond (.goto t) :: next.nodes
  | doWhile _ cond _ f body => [.ifElse cond (wrapNodes body.nodes) none, .goto f]
  | fork _ cond _ _ body next => .ifElse cond (wrapNodes body.nodes) none :: next.nodes
  | jump _ target => [.goto target]
  | go _ _ next => next.nodes
  | ret _ => [.ret]

theorem Region.tail_nodes {n : Region} {b : BasicBlock} (hb : n.taken.head? = some b) :
    n.nodes.tail = codeNodes b ++ n.behind := by
  cases n with
  | skip | missing => cases hb
  | _ =>
    obtain rfl := Option.some.inj hb
    simp [nodes, behind, headNodes_eq]

section Graph

variable {flat : List LiftedInstruction} {g : Function} (hg : IsGraphOf flat g)
  (hflat : IsYielded g.entry flat)
  (hlast : ∀ li ∈ flat, ∀ op ∈ li.ops.dropLast, op.isTerminator = false)
  {b : BasicBlock} (hb : b ∈ g.blocks)

include hg hlast hb

theorem takeWhile_ops : (b.ops.takeWhile fun op => !op.isTerminator) = b.plainOps := by
  rw [BasicBlock.plainOps]
  cases hl : b.ops.getLast? with
  | none => simp [List.getLast?_eq_none_iff.mp hl]
  | some op =>
    have hinit : ∀ op ∈ b.ops.dropLast, (!op.isTerminator) = true := by
      intro op hop
      rw [hg.cfg.isTerminator_dropLast hlast hb hop]
      rfl
    rw [← List.dropLast_append_getLast? op hl, List.filter_append,
      List.takeWhile_append_of_pos hinit, List.filter_eq_self.mpr hinit]
    cases hop : op.isTerminator <;> simp [hop]

include hflat in
/-- One step of the graph in terms of what the walk distinguishes. -/
theorem graphStep_eq (outcomes : ℕ → Bool) (tests : ℕ) (trace : List Instruction) :
    graphStep g.blocks outcomes ⟨.block b.startAddress, tests, trace⟩ =
      (exitOf b).step g.blocks outcomes b tests (trace ++ b.plainOps) := by
  have hstart : blockStarting g.blocks b.startAddress = some b :=
    (blockStarting_eq_some hg.nodup_starts).mpr ⟨hb, rfl⟩
  simp only [graphStep, hstart, takeWhile_ops hg hlast hb]
  have hexit := hasExit hg hflat hb
  generalize exitOf b = e at hexit ⊢
  cases hexit with
  | cond hterm => rw [hterm, Exit.step]
  | jump hterm => rw [hterm, Exit.step]
  | ret hterm => rw [hterm, Exit.step]
  | next hterm hnext =>
    rw [hterm, Exit.step, fallFrom, hnext]
    rfl
  | none hterm hnext =>
    rw [hterm, Exit.step, fallFrom, hnext]
    rfl

end Graph

section Step

variable {flat : List LiftedInstruction} {g : Function}
  {backEdges : Finset (Address × Address)} {r : Region} (hw : IsWalk flat g backEdges r)
  {outcomes : ℕ → Bool} {tests : ℕ} {trace : List Instruction}

include hw

theorem IsWalk.placed : Placed (wrapNodes r.nodes) outcomes g backEdges .top g.entry r where
  explores := hw.explores
  entered := Finset.mem_insert_self _ _
  stops := nofun
  leads := leads_nil
  labels y n hyn a ha := by
    rw [afterLabel_wrapNodes]
    exact afterLabelIn_nodes hw.explores.nodup_labels hyn ha

theorem IsWalk.isSome_afterLabel {a : Address} (ha : a ∈ r.labels) :
    (afterLabel a [] (wrapNodes r.nodes)).isSome := by
  obtain ⟨y, n, hs, hn⟩ := Region.exists_site .top ha
  have hfound := afterLabelIn_nodes hw.explores.nodup_labels hs hn
  rw [afterLabel_wrapNodes]
  exact Option.isSome_iff_exists.mpr ⟨_, hfound⟩

theorem IsWalk.mem_starts {a : Address} (ha : a ∈ r.labels) : a ∈ starts g.blocks := by
  obtain ⟨b, -, hb, rfl⟩ := hw.mem_labels_iff.mp ha
  exact Cfg.mem_starts.mpr ⟨b, hb, rfl⟩

theorem IsWalk.branchTo {a : Address} (ha : a ∈ r.labels) :
    branchTo g.blocks a = .block a := if_pos (hw.mem_starts ha)

/-- A block at the address 0, which stands for a missing successor, is the entry. -/
theorem IsWalk.head?_eq_none {stop : Option Address} {seen : Finset Address} {next : Region}
    (h : Explores g.blocks backEdges 0 stop seen next) (hentry : g.entry ∈ seen) :
    next.head? = none := by
  have hzero : ∀ {b}, Takes g.blocks 0 stop seen b → False := by
    intro b takes
    have hle := entry_le_start hw.graph hw.yielded takes.mem
    rw [takes.start] at hle
    exact takes.not_seen (UInt64.le_antisymm hle UInt64.zero_le ▸ hentry)
  cases h with
  | skip | missing => rfl
  | loop takes | doWhile takes | fork takes | jump takes | go takes | ret takes | stuck takes =>
    exact (hzero takes).elim

theorem Placed.matches_fall {x : Context} {t f : Address} {next : Region} {b : BasicBlock}
    {cond : Varnode} (h : Placed (wrapNodes r.nodes) outcomes g backEdges x f next)
    (hentry : g.entry ∈ x.seen) (hexit : HasExit g.blocks b (.cond cond t f))
    (hsafe : FallsSafely g.blocks r.labels b t x.seen x.fall) :
    MatchesFrom (wrapNodes r.nodes) outcomes (next.nodes ++ x.rest) tests trace
      ⟨fallFrom g.blocks b.startAddress, tests, trace⟩ := by
  have hleads := h.leads_nodes
  cases hexit with
  | cond hterm hfalls =>
    cases hnext : nextAfter g.blocks b.startAddress with
    | some n =>
      rw [FallsSafely, hnext] at hsafe
      obtain ⟨hne, hmem, hnot⟩ := hsafe
      obtain rfl : f = n := by
        rcases hfalls with ⟨-, hf⟩ | ⟨-, hall⟩
        · exact Option.some.inj (hf.symm.trans hnext)
        · exact absurd (hall n hnext) hne
      rw [h.leadsTo (hw.mem_starts hmem) hnot] at hleads
      rw [fallFrom, hnext]
      exact hleads.matches_block (hw.isSome_afterLabel hmem)
    | none =>
      rw [FallsSafely, hnext] at hsafe
      obtain rfl : f = 0 := by
        rcases hfalls with ⟨-, hf⟩ | ⟨hf, -⟩
        · rw [hnext] at hf
          cases hf
        · exact hf
      rw [Region.leadsTo, hw.head?_eq_none h.explores hentry, hsafe] at hleads
      rw [fallFrom, hnext]
      exact hleads.matches_finished

theorem Placed.matches_body {x : Context} {t : Address} {body : Region}
    (h : Placed (wrapNodes r.nodes) outcomes g backEdges x t body) (ht : t ∈ r.labels)
    (hseen : t ∉ x.seen) :
    MatchesFrom (wrapNodes r.nodes) outcomes (wrapNodes body.nodes :: x.rest) tests trace
      ⟨.block t, tests, trace⟩ := by
  have hleads := h.leads_nodes
  rw [h.leadsTo (hw.mem_starts ht) hseen] at hleads
  refine (reaches_wrapNodes body.nodes).exists_plus ?_
  exact hleads.matches_block (hw.isSome_afterLabel ht)

theorem IsWalk.nextAfter_of_back {b : BasicBlock} (hb : b ∈ g.blocks) {cond : Varnode}
    {t f : Address} (hexit : HasExit g.blocks b (.cond cond t f))
    (ht : (b.startAddress, t) ∉ backEdges) (hf : (b.startAddress, f) ∈ backEdges) :
    nextAfter g.blocks b.startAddress = some f := by
  have hedge := hw.back.edge _ _ hf
  rw [Edge, successorsOf_eq hw.graph.linked hb, mem_successors_iff hw.graph hw.yielded hb] at hedge
  cases hexit with
  | cond hterm hfalls =>
    rcases hedge with ⟨⟨op, hop, htarget⟩, -⟩ | ⟨-, hnext⟩
    · obtain rfl := Option.some.inj (hterm.symm.trans hop)
      obtain rfl := Option.some.inj htarget
      exact absurd hf ht
    · exact hnext

section Sites

variable {x : Context} {b : BasicBlock} {cond : Varnode} {t f target : Address} {body next : Region}
  {a : Address}

theorem Placed.matches_loop
    (h : Placed (wrapNodes r.nodes) outcomes g backEdges x a (.loop b cond t f next))
    (hsafe : Safe g.blocks r.labels x (.loop b cond t f next) (outcomes tests)) :
    MatchesFrom (wrapNodes r.nodes) outcomes ((Region.loop b cond t f next).behind ++ x.rest)
      tests trace ((exitOf b).step g.blocks outcomes b tests trace) := by
  have hnext := h.loop_next
  cases h.explores with
  | loop takes exit _ _ =>
    obtain rfl := takes.start
    have hexit := hasExit hw.graph hw.yielded takes.mem
    rw [exit] at hexit ⊢
    refine (ReachesPlus.single (astStep_whileDo _ _ _ _ _ _ _)).reaches.exists_plus ?_
    rw [Exit.step]
    cases ho : outcomes tests with
    | true =>
      rw [ho] at hsafe
      simp only [cond_true, hw.branchTo hsafe]
      exact (leads_goto t _).matches_block (hw.isSome_afterLabel hsafe)
    | false =>
      rw [ho] at hsafe
      exact hnext.matches_fall hw h.entered hexit hsafe

theorem Placed.matches_doWhile
    (h : Placed (wrapNodes r.nodes) outcomes g backEdges x a (.doWhile b cond t f body))
    (hsafe : Safe g.blocks r.labels x (.doWhile b cond t f body) (outcomes tests)) :
    MatchesFrom (wrapNodes r.nodes) outcomes ((Region.doWhile b cond t f body).behind ++ x.rest)
      tests trace ((exitOf b).step g.blocks outcomes b tests trace) := by
  have hbody := h.doWhile_body
  cases h.explores with
  | doWhile takes exit hnot hback _ =>
    obtain rfl := takes.start
    have hexit := hasExit hw.graph hw.yielded takes.mem
    rw [exit] at hexit ⊢
    refine (ReachesPlus.single (astStep_ifElse _ _ _ _ _ _ _)).reaches.exists_plus ?_
    rw [Exit.step]
    cases ho : outcomes tests with
    | true =>
      rw [ho] at hsafe
      obtain ⟨ht, hseen⟩ := hsafe
      simp only [cond_true, hw.branchTo ht]
      exact hbody.matches_body hw ht hseen
    | false =>
      -- the `goto` behind the body leads to the head of the loop
      rw [ho] at hsafe
      simp only [cond_false, fallFrom, hw.nextAfter_of_back takes.mem hexit hnot hback]
      exact (leads_goto f _).matches_block (hw.isSome_afterLabel hsafe)

theorem Placed.matches_fork
    (h : Placed (wrapNodes r.nodes) outcomes g backEdges x a (.fork b cond t f body next))
    (hsafe : Safe g.blocks r.labels x (.fork b cond t f body next) (outcomes tests)) :
    MatchesFrom (wrapNodes r.nodes) outcomes
      ((Region.fork b cond t f body next).behind ++ x.rest) tests trace
      ((exitOf b).step g.blocks outcomes b tests trace) := by
  have hbody := h.fork_body
  have hnext := h.fork_next
  cases h.explores with
  | fork takes exit _ _ _ _ =>
    obtain rfl := takes.start
    have hexit := hasExit hw.graph hw.yielded takes.mem
    rw [exit] at hexit ⊢
    refine (ReachesPlus.single (astStep_ifElse _ _ _ _ _ _ _)).reaches.exists_plus ?_
    rw [Exit.step]
    cases ho : outcomes tests with
    | true =>
      rw [ho] at hsafe
      obtain ⟨ht, hseen⟩ := hsafe
      simp only [cond_true, hw.branchTo ht]
      exact hbody.matches_body hw ht hseen
    | false =>
      rw [ho] at hsafe
      exact hnext.matches_fall hw (Finset.mem_union_left _ h.entered) hexit hsafe

theorem IsWalk.step_of_mem (hexit : exitOf b = .jump target ∨ exitOf b = .next target)
    (ht : target ∈ r.labels) :
    (exitOf b).step g.blocks outcomes b tests trace = ⟨.block target, tests, trace⟩ := by
  rcases hexit with he | he
  · rw [he, Exit.step, hw.branchTo ht]
  · rw [he, Exit.step]

theorem Placed.matches_jump
    (h : Placed (wrapNodes r.nodes) outcomes g backEdges x a (.jump b target))
    (hsafe : Safe g.blocks r.labels x (.jump b target) (outcomes tests)) :
    MatchesFrom (wrapNodes r.nodes) outcomes ((Region.jump b target).behind ++ x.rest)
      tests trace ((exitOf b).step g.blocks outcomes b tests trace) := by
  cases h.explores with
  | jump takes exit =>
    have hor : exitOf b = .jump target ∨ exitOf b = .next target :=
      exit.elim (fun he => Or.inl he.1) And.left
    by_cases hmem : target ∈ r.labels
    · rw [hw.step_of_mem hor hmem]
      exact (leads_goto target _).matches_block (hw.isSome_afterLabel hmem)
    · -- the `goto` leaves the syntax tree
      have hstart : target ∉ starts g.blocks := fun h => hmem (hsafe h)
      have hleft : (exitOf b).step g.blocks outcomes b tests trace =
          ⟨.left target, tests, trace⟩ := by
        rcases hor with he | he
        · rw [he, Exit.step, Structurer.branchTo, if_neg hstart]
        · have hexit := hasExit hw.graph hw.yielded takes.mem
          rw [he] at hexit
          cases hexit with
          | next _ hfalls =>
            obtain ⟨c, hc, hstart'⟩ := (nextAfter_eq_some hw.graph.nodup_starts takes.mem).mp hfalls
            exact absurd (Cfg.mem_starts.mpr ⟨c, hc.mem_right, hstart'⟩) hstart
      have hgoto : astStep (wrapNodes r.nodes) outcomes
          ⟨.run (.goto target :: x.rest), tests, trace⟩ = ⟨.left target, tests, trace⟩ := by
        rw [astStep_goto, afterLabel_wrapNodes, afterLabelIn_nodes_eq_none hmem]
        rfl
      rw [hleft]
      exact ⟨_, .single hgoto, matches_left target⟩

theorem Placed.matches_go
    (h : Placed (wrapNodes r.nodes) outcomes g backEdges x a (.go b target next))
    (hsafe : target ∈ r.labels) :
    MatchesFrom (wrapNodes r.nodes) outcomes ((Region.go b target next).behind ++ x.rest)
      tests trace ((exitOf b).step g.blocks outcomes b tests trace) := by
  have hnext := h.go_next
  cases h.explores with
  | go takes exit hseen _ =>
    obtain rfl := takes.start
    have hleads := hnext.leads_nodes
    rw [hnext.leadsTo (hw.mem_starts hsafe) hseen] at hleads
    rw [hw.step_of_mem (exit.imp_left And.left) hsafe]
    exact hleads.matches_block (hw.isSome_afterLabel hsafe)

/-- The text behind the code of a block goes where the graph goes. -/
theorem Placed.matches_behind {n : Region} (h : Placed (wrapNodes r.nodes) outcomes g backEdges x a n)
    (hb : n.taken.head? = some b) (hsafe : Safe g.blocks r.labels x n (outcomes tests)) :
    MatchesFrom (wrapNodes r.nodes) outcomes (n.behind ++ x.rest) tests trace
      ((exitOf b).step g.blocks outcomes b tests trace) := by
  cases n with
  | skip | missing => cases hb
  | loop b cond t f next =>
    obtain rfl := Option.some.inj hb
    exact h.matches_loop hw hsafe
  | doWhile b cond t f body =>
    obtain rfl := Option.some.inj hb
    exact h.matches_doWhile hw hsafe
  | fork b cond t f body next =>
    obtain rfl := Option.some.inj hb
    exact h.matches_fork hw hsafe
  | jump b target =>
    obtain rfl := Option.some.inj hb
    exact h.matches_jump hw hsafe
  | go b target next =>
    obtain rfl := Option.some.inj hb
    exact h.matches_go hw hsafe
  | ret b =>
    obtain rfl := Option.some.inj hb
    cases h.explores with
    | ret takes exit =>
      rw [exit]
      exact ⟨_, .single (astStep_ret _ _ _ _ _), matches_finished⟩
  | stuck b =>
    obtain rfl := Option.some.inj hb
    have hleads := h.leads
    cases h.explores with
    | stuck takes exit =>
      rw [exit]
      rw [show x.fall = none from hsafe] at hleads
      exact hleads.matches_finished

end Sites

variable (hlast : ∀ li ∈ flat, ∀ op ∈ li.ops.dropLast, op.isTerminator = false)

include hlast

/-- One step of the graph from a site is matched by steps of the syntax tree. -/
theorem Placed.exists_matches {x : Context} {a : Address} {n : Region}
    (h : Placed (wrapNodes r.nodes) outcomes g backEdges x a n) (hn : n.head? = some a)
    (hsafe : Safe g.blocks r.labels x n (outcomes tests)) :
    MatchesFrom (wrapNodes r.nodes) outcomes (n.nodes.tail ++ x.rest) tests trace
      (graphStep g.blocks outcomes ⟨.block a, tests, trace⟩) := by
  obtain ⟨b, hb, rfl⟩ : ∃ b, n.taken.head? = some b ∧ b.startAddress = a := by
    simpa [Region.head?, Region.labels] using hn
  have hmem : b ∈ g.blocks := h.explores.mem_of_mem_taken (List.mem_of_head? hb)
  rw [Region.tail_nodes hb, List.append_assoc,
    graphStep_eq hw.graph hw.yielded hlast hmem outcomes tests trace]
  exact (reaches_codeNodes b).exists_plus (h.matches_behind hw hb hsafe)

end Step

end Decompiler.Structurer
