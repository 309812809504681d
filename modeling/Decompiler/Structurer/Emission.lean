import Decompiler.Structurer.Sites

/-! # What the structurer emits

Every reachable block is emitted once and every `goto` has its label, except for what
gets lost when a loop closes behind a condition: the walk then stops at the head of the
loop and may never come back to it. Nothing is lost where it would not have gone on there.
-/

namespace Decompiler

def HighLevelAst.codeAt (ast : HighLevelAst) (a : Address) : List (List Instruction) :=
  (ast.lines.filterMap Line.code?).filterMap fun p => if p.1 = a then some p.2 else none

namespace Structurer

open Cfg

/-- The syntax tree has every reachable block once, with its operations directly behind
its label, and nothing else. -/
structure EmitsOnce (g : Function) (ast : HighLevelAst) : Prop where
  label : ∀ b ∈ g.blocks, Reachable g b.startAddress →
    ast.lines.count (.label b.startAddress) = 1
  code : ∀ b ∈ g.blocks, Reachable g b.startAddress →
    ast.codeAt b.startAddress = if b.plainOps = [] then [] else [b.plainOps]
  behind : ∀ b ∈ g.blocks, Reachable g b.startAddress → headLines b <:+: ast.lines
  only : ∀ a, (.label a ∈ ast.lines ∨ ∃ ops, .code a ops ∈ ast.lines) →
    ∃ b ∈ g.blocks, b.startAddress = a ∧ Reachable g a

/-- Every `goto` in the text, whether it is a node or an operation of a block, has exactly
one label. -/
def GotosLabelled (ast : HighLevelAst) : Prop :=
  ∀ line ∈ ast.lines, ∀ a ∈ line.targets, ast.lines.count (.label a) = 1

/-- The walk takes the head of every loop that it closes behind a condition. -/
def EntersLoops (g : Function) : Prop :=
  ∃ r, regionOf g = .ok r ∧ ∀ f ∈ r.loopHeads, f ∈ r.labels

namespace Region

/-- Where the walk takes the false target of a condition for the head of a loop, going on
there would end at once: the region stops at the head, or the walk has visited it. -/
def Closed (x : Context) : Region → Prop
  | doWhile b _ _ f _ => some f = x.stop ∨ f ∈ insert b.startAddress x.seen
  | _ => True

instance (x : Context) (n : Region) : Decidable (n.Closed x) :=
  match n with
  | .doWhile _ _ _ _ _ => inferInstanceAs (Decidable (_ ∨ _))
  | .loop _ _ _ _ _ | .fork _ _ _ _ _ _ | .jump _ _ | .go _ _ _ | .ret _ | .stuck _
  | .skip | .missing _ => instDecidableTrue

/-- The first block of the region does not branch to an address without a block that the walk
has visited. -/
def SeesBlock (bs : List BasicBlock) (x : Context) (n : Region) : Prop :=
  ∀ b ∈ n.taken.head?, ∀ a ∈ (exitOf b).branch?, a ∈ insert b.startAddress x.seen → a ∈ starts bs

-- the quantifiers range over the options: there are too many addresses to try
instance (bs : List BasicBlock) (x : Context) (n : Region) : Decidable (n.SeesBlock bs x) :=
  @Option.decidableForallMem _ _ (fun _ => Option.decidableForallMem _) _

end Region

/-- The walk closes no loop whose head is still before it. -/
def ClosesLoops (g : Function) : Prop :=
  ∃ r, regionOf g = .ok r ∧ ∀ p ∈ r.sites .top, p.2.Closed p.1

/-- The walk has visited no address without a block when it comes to a branch to it. -/
def SeesOnlyBlocks (g : Function) : Prop :=
  ∃ r, regionOf g = .ok r ∧ ∀ p ∈ r.sites .top, p.2.SeesBlock g.blocks p.1

-- the quantifiers range over the lists: there are too many addresses to try
instance (g : Function) : Decidable (EntersLoops g) :=
  @Fallible.decidableReturns _ _ _ _ fun _ => List.decidableBAll _ _

instance (g : Function) : Decidable (ClosesLoops g) :=
  @Fallible.decidableReturns _ _ _ _ fun _ => List.decidableBAll _ _

instance (g : Function) : Decidable (SeesOnlyBlocks g) :=
  @Fallible.decidableReturns _ _ _ _ fun _ => List.decidableBAll _ _

section Region

variable {r : Region}

theorem loopHeads_subset_gotos : r.loopHeads ⊆ r.gotos := by
  induction r with
  | skip | missing | jump | ret | stuck => exact List.nil_subset _
  | loop _ _ _ _ next ih => exact List.Subset.trans ih (List.subset_cons_self _ _)
  | doWhile _ _ _ f body ih =>
    refine List.cons_subset.mpr ⟨List.mem_append_right _ (List.mem_singleton_self f), ?_⟩
    exact List.Subset.trans ih (List.subset_append_left _ _)
  | fork _ _ _ _ body next ihb ihn =>
    exact List.append_subset.mpr ⟨List.Subset.trans ihb (List.subset_append_left _ _),
      List.Subset.trans ihn (List.subset_append_right _ _)⟩
  | go _ _ next ih => exact ih

/-- A `goto` follows a back edge or stands at the end of a block, for a branch or for the next
block. -/
theorem Explores.of_mem_gotos {bs : List BasicBlock} {backEdges : Finset (Address × Address)}
    {curr : Address} {x : Context} (h : Explores bs backEdges curr x.stop x.seen r) {a : Address}
    (ha : a ∈ r.gotos) : ∃ y n b, (y, n) ∈ r.sites x ∧ n.taken.head? = some b ∧
      ((b.startAddress, a) ∈ backEdges ∨
        (exitOf b = .jump a ∧ a ∈ insert b.startAddress y.seen ∨ exitOf b = .next a)) := by
  induction r generalizing x curr with
  | skip | missing | ret | stuck => cases ha
  | loop b cond t f next ih =>
    cases h with
    | loop takes _ hback more =>
      rcases List.mem_cons.mp ha with rfl | ha
      · exact ⟨x, _, b, List.mem_cons_self, rfl, .inl (takes.start ▸ hback)⟩
      · obtain ⟨y, n, c, hs, h⟩ := ih (x := { x with seen := insert b.startAddress x.seen })
          (takes.start ▸ more) ha
        exact ⟨y, n, c, List.mem_cons_of_mem _ hs, h⟩
  | doWhile b cond t f body ih =>
    cases h with
    | doWhile takes _ _ hback inner =>
      rcases List.mem_append.mp ha with ha | ha
      · obtain ⟨y, n, c, hs, h⟩ := ih
          (x := ⟨some f, insert b.startAddress x.seen, some f, .goto f :: x.rest⟩)
          (takes.start ▸ inner) ha
        exact ⟨y, n, c, List.mem_cons_of_mem _ hs, h⟩
      · obtain rfl := List.mem_singleton.mp ha
        exact ⟨x, _, b, List.mem_cons_self, rfl, .inl (takes.start ▸ hback)⟩
  | fork b cond t f body next ihb ihn =>
    cases h with
    | fork takes _ _ _ inner more =>
      rcases List.mem_append.mp ha with ha | ha
      · obtain ⟨y, n, c, hs, h⟩ := ihb
          (x := ⟨some f, insert b.startAddress x.seen, next.leadsTo x.fall, next.nodes ++ x.rest⟩)
          (takes.start ▸ inner) ha
        exact ⟨y, n, c, List.mem_cons_of_mem _ (List.mem_append_left _ hs), h⟩
      · obtain ⟨y, n, c, hs, h⟩ := ihn
          (x := { x with seen := insert b.startAddress x.seen ∪ body.visits })
          (takes.start ▸ more) ha
        exact ⟨y, n, c, List.mem_cons_of_mem _ (List.mem_append_right _ hs), h⟩
  | go b target next ih =>
    cases h with
    | go takes _ _ more =>
      obtain ⟨y, n, c, hs, h⟩ := ih (x := { x with seen := insert b.startAddress x.seen })
        (takes.start ▸ more) ha
      exact ⟨y, n, c, List.mem_cons_of_mem _ hs, h⟩
  | jump b target =>
    cases h with
    | jump takes exit =>
      obtain rfl := List.mem_singleton.mp ha
      obtain rfl := takes.start
      refine ⟨x, _, b, List.mem_cons_self, rfl, ?_⟩
      rcases exit with ⟨-, hback⟩ | ⟨exit | exit, hseen⟩
      · exact .inl hback
      · exact .inr (.inl ⟨exit, hseen⟩)
      · exact .inr (.inr exit)

theorem Region.mem_gotos_of_mem_sites {x y : Context} {b : BasicBlock} {a : Address}
    (h : (y, .jump b a) ∈ r.sites x) : a ∈ r.gotos := by
  induction r generalizing x with
  | skip | missing => cases h
  | loop _ _ _ _ next ih =>
    rcases List.mem_cons.mp h with h | h
    · cases h
    · exact List.mem_cons_of_mem _ (ih h)
  | doWhile _ _ _ _ body ih =>
    rcases List.mem_cons.mp h with h | h
    · cases h
    · exact List.mem_append_left _ (ih h)
  | fork _ _ _ _ body next ihb ihn =>
    rcases List.mem_cons.mp h with h | h
    · cases h
    · exact List.mem_append.mpr ((List.mem_append.mp h).imp ihb ihn)
  | go _ _ next ih =>
    rcases List.mem_cons.mp h with h | h
    · cases h
    · exact ih h
  | ret | stuck => cases List.mem_singleton.mp h
  | jump =>
    obtain ⟨-, rfl, rfl⟩ := List.mem_singleton.mp h
    exact List.mem_singleton_self _

theorem Explores.eq_jump {bs : List BasicBlock} {backEdges : Finset (Address × Address)}
    {curr a : Address} {stop : Option Address} {seen : Finset Address} {b : BasicBlock}
    (h : Explores bs backEdges curr stop seen r) (hb : r.taken.head? = some b)
    (hexit : exitOf b = .jump a) (ha : a ∈ insert b.startAddress seen) : r = .jump b a := by
  cases h with
  | skip | missing => cases hb
  | loop takes exit | doWhile takes exit | fork takes exit | ret takes exit | stuck takes exit =>
    obtain rfl := Option.some.inj hb
    cases exit.symm.trans hexit
  | jump takes exit =>
    obtain rfl := Option.some.inj hb
    rcases exit with ⟨exit, -⟩ | ⟨exit | exit, -⟩
    · rw [Exit.jump.inj (exit.symm.trans hexit)]
    · rw [Exit.jump.inj (exit.symm.trans hexit)]
    · cases exit.symm.trans hexit
  | go takes exit hseen =>
    obtain rfl := Option.some.inj hb
    rcases exit with ⟨exit, -⟩ | exit
    · obtain rfl := Exit.jump.inj (exit.symm.trans hexit)
      exact absurd (takes.start ▸ ha) hseen
    · cases exit.symm.trans hexit

/-- The head of a loop that closes is taken, has been visited or is where the region stops. -/
theorem Explores.mem_of_mem_loopHeads {bs : List BasicBlock}
    {backEdges : Finset (Address × Address)} {curr : Address} {x : Context}
    (h : Explores bs backEdges curr x.stop x.seen r) (hclosed : ∀ p ∈ r.sites x, p.2.Closed p.1)
    {a : Address} (ha : a ∈ r.loopHeads) (hstart : a ∈ starts bs) :
    a ∈ r.labels ∨ a ∈ x.seen ∨ some a = x.stop := by
  induction r generalizing x curr with
  | skip | missing | jump | ret | stuck => cases ha
  | loop b cond t f next ih =>
    cases h with
    | loop takes _ _ more =>
      obtain rfl := takes.start
      exact takes.covered_cons (ih more (List.forall_mem_cons.mp hclosed).2 ha)
  | doWhile b cond t f body ih =>
    obtain ⟨hf, hbody⟩ := List.forall_mem_cons.mp hclosed
    cases h with
    | doWhile takes _ _ _ inner =>
      obtain rfl := takes.start
      have hhead : f ∈ body.labels ∨ f ∈ insert b.startAddress x.seen ∨ some f = x.stop :=
        .inr (Or.symm hf)
      rcases List.mem_cons.mp ha with rfl | ha
      · exact takes.covered_cons hhead
      · rcases ih inner hbody ha with h | h | h
        · exact takes.covered_cons (.inl h)
        · exact takes.covered_cons (.inr (.inl h))
        · obtain rfl := Option.some.inj h
          exact takes.covered_cons hhead
  | fork b cond t f body next ihb ihn =>
    obtain ⟨-, hall⟩ := List.forall_mem_cons.mp hclosed
    obtain ⟨hbody, hnext⟩ := List.forall_mem_append.mp hall
    cases h with
    | fork takes _ _ _ inner more =>
      obtain rfl := takes.start
      have hlabels : (Region.fork b cond t f body next).labels =
          b.startAddress :: (body.labels ++ next.labels) := by
        simp [Region.labels, Region.taken]
      rw [hlabels]
      -- behind the body the walk comes to its stop address
      have hmore : a ∈ next.labels ∨ a ∈ insert b.startAddress x.seen ∪ body.visits ∨
          some a = x.stop → a ∈ body.labels ++ next.labels ∨
            a ∈ insert b.startAddress x.seen ∨ some a = x.stop := by
        rintro (h | h | h)
        · exact .inl (List.mem_append_right _ h)
        · rcases Finset.mem_union.mp h with h | h
          · exact .inr (.inl h)
          · exact .inl (List.mem_append_left _ (inner.mem_labels_of_mem_visits h hstart))
        · exact .inr (.inr h)
      rcases List.mem_append.mp ha with ha | ha
      · rcases ihb inner hbody ha with h | h | h
        · exact takes.covered_cons (.inl (List.mem_append_left _ h))
        · exact takes.covered_cons (.inr (.inl h))
        · obtain rfl := Option.some.inj h
          exact takes.covered_cons (hmore (more.mem_of_start hstart))
      · exact takes.covered_cons (hmore (ihn more hnext ha))
  | go b target next ih =>
    cases h with
    | go takes _ _ more =>
      obtain rfl := takes.start
      exact takes.covered_cons (ih more (List.forall_mem_cons.mp hclosed).2 ha)

theorem count_label_lines (hnd : r.labels.Nodup) (a : Address) :
    r.lines.count (.label a) = if a ∈ r.labels then 1 else 0 := by
  rw [Line.count_label, Region.filterMap_label?_lines, hnd.count]

theorem lines_wrapNodes_nodes : (wrapNodes r.nodes).lines = r.lines := by
  rw [lines_wrapNodes, Region.nodeLines_nodes]

theorem codeAt_wrapNodes (hnd : r.labels.Nodup) {b : BasicBlock} (hb : b ∈ r.taken) :
    (wrapNodes r.nodes).codeAt b.startAddress =
      if b.plainOps = [] then [] else [b.plainOps] := by
  rw [HighLevelAst.codeAt, lines_wrapNodes_nodes, Region.filterMap_code?_lines]
  rw [Region.labels] at hnd
  generalize r.taken = l at hnd hb ⊢
  have hother : ∀ c : BasicBlock, c.startAddress ≠ b.startAddress →
      ((codeLines c).filterMap Line.code?).filterMap
        (fun p => if p.1 = b.startAddress then some p.2 else none) = [] := by
    intro c hc
    rw [codeLines]
    split
    case isTrue => rfl
    case isFalse => simp [Line.code?, hc]
  have hown : ((codeLines b).filterMap Line.code?).filterMap
      (fun p => if p.1 = b.startAddress then some p.2 else none) =
        if b.plainOps = [] then [] else [b.plainOps] := by
    rw [codeLines]
    split <;> simp [Line.code?]
  induction l with
  | nil => cases hb
  | cons c l ih =>
    rw [List.flatMap_cons, List.filterMap_append]
    rw [List.map_cons, List.nodup_cons] at hnd
    rcases List.mem_cons.mp hb with rfl | hb
    · have hrest : (l.flatMap fun c => (codeLines c).filterMap Line.code?).filterMap
          (fun p => if p.1 = b.startAddress then some p.2 else none) = [] := by
        rw [List.filterMap_flatMap, List.flatMap_eq_nil_iff]
        intro c hc
        exact hother c fun heq => hnd.1 (heq ▸ List.mem_map_of_mem hc)
      rw [hown, hrest, List.append_nil]
    · have hne : c.startAddress ≠ b.startAddress :=
        fun heq => hnd.1 (heq ▸ List.mem_map_of_mem hb)
      rw [hother c hne, List.nil_append, ih hnd.2 hb]

end Region

variable {name : String} {entry : Address} {flat : List LiftedInstruction} {g : Function}

theorem IsWalk.entersLoops_iff {backEdges : Finset (Address × Address)} {r : Region}
    (h : IsWalk flat g backEdges r) :
    EntersLoops g ↔ ∀ a, Reachable g a → a ∈ r.labels := by
  rw [h.explores.forall_reachable_iff h.graph h.yielded h.back h.entry]
  constructor
  · rintro ⟨r', hr', hloops⟩
    obtain rfl := Except.ok.inj (h.region.symm.trans hr')
    exact hloops
  · exact fun hloops => ⟨r, h.region, hloops⟩

theorem IsWalk.entersLoops {backEdges : Finset (Address × Address)} {r : Region}
    (h : IsWalk flat g backEdges r) (hclosed : ClosesLoops g) : EntersLoops g := by
  obtain ⟨r', hr', hclosed⟩ := hclosed
  obtain rfl := Except.ok.inj (h.region.symm.trans hr')
  refine ⟨r, hr', fun f hf => ?_⟩
  obtain ⟨b, -, hback⟩ := h.explores.exists_back_of_mem_loopHeads hf
  have hstart : f ∈ starts g.blocks :=
    mem_starts.mpr (exists_block_of_edge h.graph.linked (h.back.edge _ _ hback))
  rcases h.explores.mem_of_mem_loopHeads (x := .top) hclosed hf hstart with hmem | hmem | hmem
  · exact hmem
  · exact absurd hmem (Finset.notMem_empty f)
  · cases hmem

theorem entersLoops_of_closesLoops (hflat : IsYielded entry flat)
    (hg : build (.ofStream name entry flat) = .ok g) (hclosed : ClosesLoops g) :
    EntersLoops g := by
  rcases (walk_of_build hflat hg).2 with ⟨-, -, hregion⟩ | ⟨backEdges, r, hw⟩
  · exact ⟨_, hregion, List.forall_mem_nil _⟩
  · exact hw.entersLoops hclosed

/-- The structurer emits every reachable block once exactly if its walk takes the head of
every loop that it closes behind a condition. -/
theorem emitsOnce_iff_entersLoops (hflat : IsYielded entry flat)
    (hg : build (.ofStream name entry flat) = .ok g) :
    ∃ ast, doStructure g = .ok ast ∧ (EmitsOnce g ast ↔ EntersLoops g) := by
  rcases (walk_of_build hflat hg).2 with ⟨hnil, hast, hregion⟩ | ⟨backEdges, r, hw⟩
  · refine ⟨_, hast, ⟨fun _ => ⟨_, hregion, List.forall_mem_nil _⟩, fun _ => ?_⟩⟩
    refine ⟨?_, ?_, ?_, ?_⟩
    · simp [hnil]
    · simp [hnil]
    · simp [hnil]
    · rintro a (h | ⟨ops, h⟩) <;> cases h
  have hnd := hw.explores.nodup_labels
  refine ⟨_, hw.ast, ?_⟩
  rw [hw.entersLoops_iff]
  constructor
  · intro h a ha
    have hstart : a ∈ starts g.blocks := by
      rcases Relation.ReflTransGen.cases_tail ha with rfl | ⟨_, -, hedge⟩
      · exact hw.entry
      · exact mem_starts.mpr (exists_block_of_edge hw.graph.linked hedge)
    obtain ⟨b, hb, rfl⟩ := mem_starts.mp hstart
    have hone := h.label b hb ha
    rw [lines_wrapNodes_nodes, count_label_lines hnd] at hone
    by_contra hnot
    rw [if_neg hnot] at hone
    cases hone
  · intro hall
    -- a reachable block is the block that the walk takes at its address
    have htaken : ∀ b ∈ g.blocks, Reachable g b.startAddress → b ∈ r.taken := by
      intro b hb hreach
      obtain ⟨c, hc, hmem, hstart⟩ := hw.mem_labels_iff.mp (hall _ hreach)
      rwa [← hw.graph.cfg.eq_of_start hw.graph.nodup hmem hb hstart]
    refine ⟨fun b hb hreach => ?_, fun b hb hreach => ?_, fun b hb hreach => ?_, fun a ha => ?_⟩
    · rw [lines_wrapNodes_nodes, count_label_lines hnd, if_pos (hall _ hreach)]
    · exact codeAt_wrapNodes hnd (htaken b hb hreach)
    · rw [lines_wrapNodes_nodes]
      exact Region.headLines_infix (htaken b hb hreach)
    · have hlabel : a ∈ r.labels := by
        rw [lines_wrapNodes_nodes] at ha
        rcases ha with ha | ⟨ops, ha⟩
        · rwa [← Line.mem_filterMap_label?, Region.filterMap_label?_lines] at ha
        · obtain ⟨b, hb, rfl, -⟩ := Region.exists_taken_of_code ha
          exact List.mem_map_of_mem hb
      obtain ⟨b, -, hb, hstart⟩ := hw.mem_labels_iff.mp hlabel
      exact ⟨b, hb, hstart, hw.explores.reachable_of_mem_labels hw.graph hw.yielded hlabel⟩

/-- The structurer emits every reachable block once if its walk closes no loop whose head is
still before it. -/
theorem emitsOnce_of_closesLoops (hflat : IsYielded entry flat)
    (hg : build (.ofStream name entry flat) = .ok g) :
    ∃ ast, doStructure g = .ok ast ∧ (ClosesLoops g → EmitsOnce g ast) := by
  obtain ⟨ast, hast, hiff⟩ := emitsOnce_iff_entersLoops hflat hg
  exact ⟨ast, hast, fun hclosed => hiff.mpr (entersLoops_of_closesLoops hflat hg hclosed)⟩

/-- `jmp` into a loop at its second half; `je` out of it from the first; `jmp` back to the first;
`jmp` to the start. -/
def nestedLoop : List UInt8 := [0xEB, 0x02, 0x74, 0x02, 0xEB, 0xFC, 0xEB, 0xF8]

theorem emitsOnce_of_closesLoops_nestedLoop :
    ∃ f, Arch.x86.processFunction "input" nestedLoop 0x1000 = .ok f ∧
      ∃ g, build f = .ok g ∧ ∃ ast, doStructure g = .ok ast ∧ EmitsOnce g ast := by
  have hrun : ∃ f, Arch.x86.processFunction "input" nestedLoop 0x1000 = .ok f ∧
      ∃ g, build f = .ok g ∧ ClosesLoops g := by decide +kernel
  obtain ⟨f, hf, g, hg, hclosed⟩ := hrun
  obtain ⟨flat, rfl, hflat⟩ := Arch.processFunction_eq_ok hf
  obtain ⟨ast, hast, hemits⟩ := emitsOnce_of_closesLoops hflat.isYielded hg
  exact ⟨_, hf, g, hg, ast, hast, hemits hclosed⟩

/-- A head that is still before the walk is not lost where an enclosing region comes to it. -/
example : ∃ f, Arch.x86.processFunction "input"
      [0x74, 0x02, 0xEB, 0x02, 0x74, 0x02, 0xEB, 0xFC, 0x74, 0xFC] 0x1000 = .ok f ∧
    ∃ g, build f = .ok g ∧ EntersLoops g ∧ ¬ ClosesLoops g := by
  decide +kernel

/-- Two entries into a loop whose condition falls through to its head at `0x1006`. -/
def lostHead : List UInt8 :=
  [0x74, 0x02, 0xEB, 0x06, 0x74, 0x02, 0xEB, 0xFC, 0x74, 0xF6, 0xEB, 0xFA]

/-- The block at `0x1006` is reachable and has no label. -/
theorem not_emitsOnce_lostHead :
    ∃ f, Arch.x86.processFunction "input" lostHead 0x1000 = .ok f ∧
      ∃ g, build f = .ok g ∧ ∃ ast, doStructure g = .ok ast ∧ ¬ EmitsOnce g ast := by
  have hrun : ∃ f, Arch.x86.processFunction "input" lostHead 0x1000 = .ok f ∧
      ∃ g, build f = .ok g ∧ g.entry = 0x1000 ∧
        (∃ b ∈ g.blocks, b.startAddress = 0x1006) ∧
        0x1004 ∈ successorsOf g.blocks 0x1000 ∧ 0x1006 ∈ successorsOf g.blocks 0x1004 ∧
        ∃ ast, doStructure g = .ok ast ∧ ast.lines.count (.label 0x1006) = 0 := by
    decide +kernel
  obtain ⟨f, hf, g, hg, hentry, ⟨b, hb, hstart⟩, hfirst, hsecond, ast, hast, hnone⟩ := hrun
  have hreach : Reachable g 0x1006 := by
    rw [Reachable, hentry]
    exact (Relation.ReflTransGen.single hfirst).tail hsecond
  refine ⟨f, hf, g, hg, ast, hast, fun h => ?_⟩
  have hone := h.label b hb (hstart ▸ hreach)
  rw [hstart, hnone] at hone
  cases hone

/-- Every `goto` has its label exactly if every reachable block is emitted and the walk
has seen no address without a block when it comes to a branch to it. -/
theorem gotosLabelled_iff (hflat : IsYielded entry flat)
    (hg : build (.ofStream name entry flat) = .ok g) :
    ∃ ast, doStructure g = .ok ast ∧ (GotosLabelled ast ↔ EntersLoops g ∧ SeesOnlyBlocks g) := by
  rcases (walk_of_build hflat hg).2 with ⟨hnil, hast, hregion⟩ | ⟨backEdges, r, hw⟩
  · refine ⟨_, hast, ⟨fun _ => ⟨?_, ?_⟩, fun _ => List.forall_mem_nil _⟩⟩
    · exact ⟨_, hregion, List.forall_mem_nil _⟩
    · exact ⟨_, hregion, List.forall_mem_nil _⟩
  have hgotos : GotosLabelled (wrapNodes r.nodes) ↔ ∀ a ∈ r.gotos, a ∈ r.labels := by
    rw [← Region.flatMap_targets_lines, GotosLabelled, lines_wrapNodes_nodes]
    simp only [count_label_lines hw.explores.nodup_labels, List.mem_flatMap]
    constructor
    · rintro h a ⟨line, hline, ha⟩
      by_contra hnot
      have := h line hline a ha
      rw [if_neg hnot] at this
      cases this
    · exact fun h line hline a ha => if_pos (h a ⟨line, hline, ha⟩)
  refine ⟨_, hw.ast, ?_⟩
  rw [hgotos]
  constructor
  · intro h
    refine ⟨⟨r, hw.region, fun f hf => h f (loopHeads_subset_gotos hf)⟩, r, hw.region, ?_⟩
    rintro ⟨x, n⟩ hsite b hb a ha hseen
    obtain ⟨curr, hexp⟩ := hw.explores.site hsite
    have hexit : exitOf b = .jump a := Exit.branch?_eq_some.mp ha
    obtain rfl := hexp.eq_jump hb hexit hseen
    obtain ⟨c, -, hc, rfl⟩ := hw.mem_labels_iff.mp (h a (Region.mem_gotos_of_mem_sites hsite))
    exact mem_starts.mpr ⟨c, hc, rfl⟩
  · rintro ⟨hloops, r', hr', hsees⟩ a ha
    obtain rfl := Except.ok.inj (hw.region.symm.trans hr')
    apply hw.entersLoops_iff.mp hloops
    obtain ⟨x, n, b, hsite, hhead, h⟩ := hw.explores.of_mem_gotos (x := .top) ha
    obtain ⟨curr, hexp⟩ := hw.explores.site hsite
    have hb : b ∈ g.blocks := hexp.mem_of_mem_taken (List.mem_of_head? hhead)
    have hstart : n.head? = some b.startAddress := by
      rw [Region.head?, Region.labels, List.head?_map, hhead, Option.map_some]
    have hlabel : b.startAddress ∈ r.labels := Region.mem_labels_of_mem_sites hsite hstart
    have hreach := hw.explores.reachable_of_mem_labels hw.graph hw.yielded hlabel
    rcases h with hback | ⟨hexit, hseen⟩ | hexit
    · exact hreach.tail (hw.back.edge _ _ hback)
    · have htarget : a ∈ (exitOf b).targets := by simp [hexit, Exit.targets]
      refine reachable_of_mem_targets hw.graph hw.yielded hb hreach htarget ?_
      exact hsees (x, n) hsite b hhead a (Exit.branch?_eq_some.mpr hexit) hseen
    · have htarget : a ∈ (exitOf b).targets := by simp [hexit, Exit.targets]
      refine reachable_of_mem_targets hw.graph hw.yielded hb hreach htarget ?_
      have hnext := hasExit hw.graph hw.yielded hb
      rw [hexit] at hnext
      cases hnext with
      | next _ hfalls =>
        obtain ⟨c, hc, hstart⟩ := (nextAfter_eq_some hw.graph.nodup_starts hb).mp hfalls
        exact mem_starts.mpr ⟨c, hc.mem_right, hstart⟩

/-- Every `goto` has its label if the walk closes no loop whose head is still before it and has
seen no address without a block when it comes to a branch to it; the latter is necessary. -/
theorem gotosLabelled_of_closesLoops (hflat : IsYielded entry flat)
    (hg : build (.ofStream name entry flat) = .ok g) :
    ∃ ast, doStructure g = .ok ast ∧ (ClosesLoops g ∧ SeesOnlyBlocks g → GotosLabelled ast) ∧
      (GotosLabelled ast → SeesOnlyBlocks g) := by
  obtain ⟨ast, hast, hiff⟩ := gotosLabelled_iff hflat hg
  refine ⟨ast, hast, ?_, fun h => (hiff.mp h).2⟩
  rintro ⟨hclosed, hsees⟩
  exact hiff.mpr ⟨entersLoops_of_closesLoops hflat hg hclosed, hsees⟩

theorem gotosLabelled_of_closesLoops_nestedLoop :
    ∃ f, Arch.x86.processFunction "input" nestedLoop 0x1000 = .ok f ∧
      ∃ g, build f = .ok g ∧ ∃ ast, doStructure g = .ok ast ∧ GotosLabelled ast := by
  have hrun : ∃ f, Arch.x86.processFunction "input" nestedLoop 0x1000 = .ok f ∧
      ∃ g, build f = .ok g ∧ ClosesLoops g ∧ SeesOnlyBlocks g := by decide +kernel
  obtain ⟨f, hf, g, hg, hclosed⟩ := hrun
  obtain ⟨flat, rfl, hflat⟩ := Arch.processFunction_eq_ok hf
  obtain ⟨ast, hast, hlabelled, -⟩ := gotosLabelled_of_closesLoops hflat.isYielded hg
  exact ⟨_, hf, g, hg, ast, hast, hlabelled hclosed⟩

/-- Both branches of a condition end in a jump out of the function to `0x1024`. -/
def sharedTailJump : List UInt8 := [0x74, 0x02, 0xEB, 0x20, 0xEB, 0x1E]

/-- The second of the jumps is a `goto` without a label. -/
theorem not_gotosLabelled_sharedTailJump :
    ∃ f, Arch.x86.processFunction "input" sharedTailJump 0x1000 = .ok f ∧
      ∃ g, build f = .ok g ∧ ∃ ast, doStructure g = .ok ast ∧ ¬ GotosLabelled ast := by
  have hrun : ∃ f, Arch.x86.processFunction "input" sharedTailJump 0x1000 = .ok f ∧
      ∃ g, build f = .ok g ∧ ∃ ast, doStructure g = .ok ast ∧
        .goto 0x1024 ∈ ast.lines ∧ ast.lines.count (.label 0x1024) = 0 := by
    decide +kernel
  obtain ⟨f, hf, g, hg, ast, hast, hgoto, hnone⟩ := hrun
  refine ⟨f, hf, g, hg, ast, hast, fun h => ?_⟩
  have hone := h _ hgoto 0x1024 (List.mem_singleton_self _)
  rw [hnone] at hone
  cases hone

end Structurer

end Decompiler
