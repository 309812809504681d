import Decompiler.Dataflow.Greatest

/-! # The paths behind a solution

Every path through the blocks leaves a state of its own. A solution lies below the
states of all paths, and when the operations distribute over `merge` the solver
loses nothing against following every path apart: its result is their meet.
-/

namespace Decompiler.Dataflow

structure IsPath (f : Function) (bs : List BasicBlock) : Prop where
  mem : ∀ b ∈ bs, b ∈ f.blocks
  chain : bs.IsChain fun b c => c.startAddress ∈ b.successors

theorem IsPath.singleton {f : Function} {b : BasicBlock} (hb : b ∈ f.blocks) : IsPath f [b] :=
  ⟨by simpa using hb, List.isChain_singleton b⟩

theorem isPath_concat {f : Function} {bs : List BasicBlock} {b c : BasicBlock} :
    IsPath f (bs ++ [b] ++ [c]) ↔
      IsPath f (bs ++ [b]) ∧ c ∈ f.blocks ∧ c.startAddress ∈ b.successors := by
  constructor
  · rintro ⟨hmem, hchain⟩
    obtain ⟨hchain, -, hedge⟩ := List.isChain_append.mp hchain
    refine ⟨⟨fun d hd => hmem d (List.mem_append_left _ hd), hchain⟩, hmem c (by simp), ?_⟩
    exact hedge b (by simp) c (by simp)
  · rintro ⟨⟨hmem, hchain⟩, hc, hedge⟩
    refine ⟨fun d hd => ?_, List.isChain_append.mpr ⟨hchain, List.isChain_singleton c, ?_⟩⟩
    · rcases List.mem_append.mp hd with hd | hd
      · exact hmem d hd
      · rwa [List.mem_singleton.mp hd]
    · intro d hd e he
      simp only [List.getLast?_append, List.getLast?_singleton, Option.some_or,
        Option.mem_def, Option.some.injEq, List.head?_cons] at hd he
      rwa [← hd, ← he]

variable {S : Type*} [Lattice S]

/-- What the blocks of a path make of a start at which nothing is known. -/
def pathState (transfer : TransferFunction S) (bs : List BasicBlock) : S :=
  bs.foldl (fun state b => transferBlock b state transfer) Lattice.top

@[simp] theorem pathState_nil (transfer : TransferFunction S) :
    pathState transfer [] = Lattice.top := rfl

@[simp] theorem pathState_concat (transfer : TransferFunction S) (bs : List BasicBlock)
    (b : BasicBlock) :
    pathState transfer (bs ++ [b]) = transferBlock b (pathState transfer bs) transfer := by
  simp [pathState]

/-- No operation gains from being applied before paths merge. -/
def Distributes (transfer : TransferFunction S) : Prop :=
  ∀ op s t, transfer.transferInstruction op (Lattice.merge s t) =
    Lattice.merge (transfer.transferInstruction op s) (transfer.transferInstruction op t)

theorem Distributes.transferBlock {transfer : TransferFunction S} (h : Distributes transfer)
    (b : BasicBlock) (s t : S) :
    transferBlock b (Lattice.merge s t) transfer =
      Lattice.merge (transferBlock b s transfer) (transferBlock b t transfer) := by
  simp only [transferBlock_eq_foldl]
  induction b.ops generalizing s t with
  | nil => rfl
  | cons op ops ih => rw [List.foldl_cons, List.foldl_cons, List.foldl_cons, h, ih]

def arriving (f : Function) (transfer : TransferFunction S) (a : Address) : Set S :=
  {s | ∃ bs b, b.startAddress = a ∧ IsPath f (bs ++ [b]) ∧ s = pathState transfer bs}

def leaving (f : Function) (transfer : TransferFunction S) (a : Address) : Set S :=
  {s | ∃ bs b, b.startAddress = a ∧ IsPath f (bs ++ [b]) ∧ s = pathState transfer (bs ++ [b])}

section Meet

variable [LawfulLattice S]

open LawfulLattice

theorem foldr_merge_le {l : List S} {s : S} (h : s ∈ l) :
    l.foldr Lattice.merge Lattice.top ≤ s := by
  induction l with
  | nil => cases h
  | cons t l ih =>
    rw [List.foldr_cons]
    rcases List.mem_cons.mp h with rfl | h
    · exact inf_le_left
    · exact inf_le_right.trans (ih h)

theorem le_foldr_merge {l : List S} {z : S} (h : ∀ s ∈ l, z ≤ s) :
    z ≤ l.foldr Lattice.merge Lattice.top := by
  induction l with
  | nil => exact le_top z
  | cons t l ih =>
    rw [List.foldr_cons]
    exact le_inf (h t (by simp)) (ih fun s hs => h s (List.mem_cons_of_mem _ hs))

theorem foldr_merge_append (l m : List S) :
    (l ++ m).foldr Lattice.merge Lattice.top =
      Lattice.merge (l.foldr Lattice.merge Lattice.top) (m.foldr Lattice.merge Lattice.top) := by
  induction l with
  | nil =>
    rw [List.nil_append, List.foldr_nil, merge_comm, merge_top]
  | cons s l ih => rw [List.cons_append, List.foldr_cons, List.foldr_cons, ih, merge_assoc]

/-- A finite meet of members of `A`. -/
def IsMeetOf (A : Set S) (s : S) : Prop :=
  ∃ l : List S, (∀ t ∈ l, t ∈ A) ∧ s = l.foldr Lattice.merge Lattice.top

theorem IsMeetOf.isGLB {A : Set S} {s : S} (h : IsMeetOf A s) (hs : s ∈ lowerBounds A) :
    IsGLB A s := by
  obtain ⟨l, hl, rfl⟩ := h
  exact ⟨hs, fun z hz => le_foldr_merge fun t ht => hz (hl t ht)⟩

omit [LawfulLattice S] in
theorem isMeetOf_top (A : Set S) : IsMeetOf A Lattice.top :=
  ⟨[], by simp, rfl⟩

omit [LawfulLattice S] in
theorem IsMeetOf.mono {A B : Set S} {s : S} (hAB : A ⊆ B) (h : IsMeetOf A s) : IsMeetOf B s := by
  obtain ⟨l, hl, rfl⟩ := h
  exact ⟨l, fun t ht => hAB (hl t ht), rfl⟩

theorem IsMeetOf.merge {A : Set S} {s t : S} (hs : IsMeetOf A s) (ht : IsMeetOf A t) :
    IsMeetOf A (Lattice.merge s t) := by
  obtain ⟨l, hl, rfl⟩ := hs
  obtain ⟨m, hm, rfl⟩ := ht
  refine ⟨l ++ m, fun u hu => ?_, (foldr_merge_append l m).symm⟩
  exact (List.mem_append.mp hu).elim (hl u) (hm u)

theorem isMeetOf_foldr {A : Set S} {l : List S} (h : ∀ s ∈ l, IsMeetOf A s) :
    IsMeetOf A (l.foldr Lattice.merge Lattice.top) := by
  induction l with
  | nil => exact isMeetOf_top A
  | cons s l ih =>
    exact (h s (by simp)).merge (ih fun t ht => h t (List.mem_cons_of_mem _ ht))

theorem map_foldr_merge {g : S → S}
    (hg : ∀ s t, g (Lattice.merge s t) = Lattice.merge (g s) (g t)) {l : List S} (hl : l ≠ []) :
    g (l.foldr Lattice.merge Lattice.top) = (l.map g).foldr Lattice.merge Lattice.top := by
  induction l with
  | nil => exact absurd rfl hl
  | cons s l ih =>
    cases l with
    | nil => simp [merge_top]
    | cons t l =>
      rw [List.foldr_cons, hg, ih (List.cons_ne_nil t l)]
      rfl

end Meet

section Solution

variable [LawfulLattice S] {f : Function} {transfer : TransferFunction S}

/-- A solution is below the state of every path, where the path arrives and where it
leaves. -/
theorem IsSolution.le_pathState (hrev : EdgesReversed f)
    (hmono : ∀ op, Monotone (transfer.transferInstruction op)) {blockIn blockOut : Address → S}
    (h : IsSolution f transfer blockIn blockOut) {bs : List BasicBlock} {b : BasicBlock}
    (hpath : IsPath f (bs ++ [b])) :
    blockIn b.startAddress ≤ pathState transfer bs ∧
      blockOut b.startAddress ≤ pathState transfer (bs ++ [b]) := by
  -- leaving follows from arriving, through the operations of the block
  have hout : ∀ {bs : List BasicBlock} {b : BasicBlock}, b ∈ f.blocks →
      blockIn b.startAddress ≤ pathState transfer bs →
        blockOut b.startAddress ≤ pathState transfer (bs ++ [b]) := by
    intro bs b hb hle
    rw [h.out_eq b hb, ← transferBlock_eq_foldl, pathState_concat]
    exact transferBlock_mono hmono b hle
  induction bs using List.reverseRecOn generalizing b with
  | nil =>
    have hb : b ∈ f.blocks := hpath.mem b (by simp)
    exact ⟨le_top _, hout hb (le_top _)⟩
  | append_singleton bs c ih =>
    obtain ⟨hpath, hb, hedge⟩ := isPath_concat.mp hpath
    have hc : c ∈ f.blocks := hpath.mem c (by simp)
    have hpred : c.startAddress ∈ b.predecessors := (hrev b hb _).mpr ⟨c, hc, rfl, hedge⟩
    have hle : blockIn b.startAddress ≤ pathState transfer (bs ++ [c]) := by
      rw [h.in_eq b hb]
      exact (foldr_merge_le (List.mem_map_of_mem hpred)).trans (ih hpath).2
    exact ⟨hle, hout hb hle⟩

omit [LawfulLattice S] in
theorem leaving_subset_arriving (hnd : (f.blocks.map BasicBlock.startAddress).Nodup)
    (hrev : EdgesReversed f) {b : BasicBlock} (hb : b ∈ f.blocks) {p : Address}
    (hp : p ∈ b.predecessors) :
    leaving f transfer p ⊆ arriving f transfer b.startAddress := by
  rintro s ⟨bs, c, rfl, hpath, rfl⟩
  obtain ⟨d, hd, hdc, hedge⟩ := (hrev b hb _).mp hp
  obtain rfl := List.inj_on_of_nodup_map hnd hd (hpath.mem c (by simp)) hdc
  exact ⟨bs ++ [d], b, rfl, isPath_concat.mpr ⟨hpath, hb, hedge⟩, rfl⟩

omit [LawfulLattice S] in
theorem transferBlock_mem_leaving (hnd : (f.blocks.map BasicBlock.startAddress).Nodup)
    {b : BasicBlock} (hb : b ∈ f.blocks) {s : S} (hs : s ∈ arriving f transfer b.startAddress) :
    transferBlock b s transfer ∈ leaving f transfer b.startAddress := by
  obtain ⟨bs, c, hcb, hpath, rfl⟩ := hs
  obtain rfl := List.inj_on_of_nodup_map hnd (hpath.mem c (by simp)) hb hcb
  exact ⟨bs, c, rfl, hpath, (pathState_concat transfer bs c).symm⟩

omit [LawfulLattice S] in
theorem top_mem_arriving {b : BasicBlock} (hb : b ∈ f.blocks) :
    Lattice.top ∈ arriving f transfer b.startAddress :=
  ⟨[], b, rfl, .singleton hb, rfl⟩

theorem isMeetOf_inOf (hnd : (f.blocks.map BasicBlock.startAddress).Nodup)
    (hrev : EdgesReversed f) {b : BasicBlock} (hb : b ∈ f.blocks) {x : Address → S}
    (hx : ∀ a, IsMeetOf (leaving f transfer a) (x a)) :
    IsMeetOf (arriving f transfer b.startAddress) (inOf b fun p => some (x p)) := by
  rw [inOf_eq_foldr]
  refine isMeetOf_foldr fun s hs => ?_
  obtain ⟨p, hp, rfl⟩ := List.mem_map.mp hs
  exact (hx p).mono (leaving_subset_arriving hnd hrev hb hp)

theorem isMeetOf_outOf (hnd : (f.blocks.map BasicBlock.startAddress).Nodup)
    (hdist : Distributes transfer)
    {b : BasicBlock} (hb : b ∈ f.blocks) {s : S}
    (hs : IsMeetOf (arriving f transfer b.startAddress) s) :
    IsMeetOf (leaving f transfer b.startAddress) (transferBlock b s transfer) := by
  obtain ⟨l, hl, rfl⟩ := hs
  by_cases hnil : l = []
  · subst hnil
    refine ⟨[transferBlock b Lattice.top transfer], ?_, by simp [LawfulLattice.merge_top]⟩
    simpa using transferBlock_mem_leaving hnd hb (top_mem_arriving hb)
  · refine ⟨l.map (transferBlock b · transfer), fun t ht => ?_, ?_⟩
    · obtain ⟨s, hs, rfl⟩ := List.mem_map.mp ht
      exact transferBlock_mem_leaving hnd hb (hl s hs)
    · exact map_foldr_merge (g := (transferBlock b · transfer)) (hdist.transferBlock b) hnil

variable [DecidableEq S]

/-- What the solver holds for a block is, at every moment, the meet of finitely many
paths. -/
theorem solveForward_isMeetOf (hnd : (f.blocks.map BasicBlock.startAddress).Nodup)
    (hrev : EdgesReversed f)
    (hdist : Distributes transfer)
    {fuel : ℕ} {r : DataflowResult S} (h : solveForward fuel f transfer = .ok r) (a : Address) :
    IsMeetOf (leaving f transfer a) (outs r.blockOut a) :=
  solveForward_outs (fun a => isMeetOf_top (leaving f transfer a))
    (fun _ hb _ hx => isMeetOf_outOf hnd hdist hb (isMeetOf_inOf hnd hrev hb hx)) h a

theorem SolvesTo.isMeetOf {i o : Address → S} (hsolves : SolvesTo f transfer i o)
    (hnd : (f.blocks.map BasicBlock.startAddress).Nodup) (hrev : EdgesReversed f)
    (hdist : Distributes transfer) (h : IsSolution f transfer i o) {b : BasicBlock}
    (hb : b ∈ f.blocks) : IsMeetOf (arriving f transfer b.startAddress) (i b.startAddress) ∧
      IsMeetOf (leaving f transfer b.startAddress) (o b.startAddress) := by
  have hmeet : ∀ c ∈ f.blocks, IsMeetOf (leaving f transfer c.startAddress) (o c.startAddress) := by
    intro c hc
    obtain ⟨N, r, hr, hread⟩ := hsolves
    have hout := solveForward_isMeetOf hnd hrev hdist (hr N (le_refl N)) c.startAddress
    rwa [outs, (hread c hc).2] at hout
  refine ⟨?_, hmeet b hb⟩
  rw [h.in_eq b hb]
  refine isMeetOf_foldr fun s hs => ?_
  obtain ⟨p, hp, rfl⟩ := List.mem_map.mp hs
  obtain ⟨c, hc, rfl, -⟩ := (hrev b hb p).mp hp
  exact (hmeet c hc).mono (leaving_subset_arriving hnd hrev hb hp)

/-- The result of the solver is safe for every path: it is below the state with which
the path arrives at a block, and below the one with which it leaves. When the operations
distribute over `merge`, it is the greatest such state. -/
theorem solveForward_meetOverPaths (hnd : (f.blocks.map BasicBlock.startAddress).Nodup)
    (hrev : EdgesReversed f) (hwf : WellFounded fun a b : S => Below a b ∧ a ≠ b)
    (hmono : ∀ op (a b : S), Below a b →
      Below (transfer.transferInstruction op a) (transfer.transferInstruction op b)) :
    ∃ blockIn blockOut : Address → S, SolvesTo f transfer blockIn blockOut ∧
      (∀ b ∈ f.blocks, blockIn b.startAddress ∈ lowerBounds (arriving f transfer b.startAddress) ∧
        blockOut b.startAddress ∈ lowerBounds (leaving f transfer b.startAddress)) ∧
      (Distributes transfer →
        ∀ b ∈ f.blocks, IsGLB (arriving f transfer b.startAddress) (blockIn b.startAddress) ∧
          IsGLB (leaving f transfer b.startAddress) (blockOut b.startAddress)) := by
  obtain ⟨i, o, hgreatest, hsolves⟩ := exists_isGreatestSolution hnd hrev hwf hmono
  have hle : ∀ b ∈ f.blocks, i b.startAddress ∈ lowerBounds (arriving f transfer b.startAddress) ∧
      o b.startAddress ∈ lowerBounds (leaving f transfer b.startAddress) := by
    intro b hb
    constructor
    all_goals
      rintro s ⟨bs, c, hcb, hpath, rfl⟩
      obtain rfl := List.inj_on_of_nodup_map hnd (hpath.mem c (by simp)) hb hcb
    · exact (hgreatest.le_pathState hrev (fun op a b => hmono op a b) hpath).1
    · exact (hgreatest.le_pathState hrev (fun op a b => hmono op a b) hpath).2
  refine ⟨i, o, hsolves, hle, fun hdist b hb => ?_⟩
  obtain ⟨harriving, hleaving⟩ := hsolves.isMeetOf hnd hrev hdist hgreatest.toIsSolution hb
  exact ⟨harriving.isGLB (hle b hb).1, hleaving.isGLB (hle b hb).2⟩

end Solution

/-- `entry -> head`, `head -> {head, exit}` -/
def spin : Function :=
  { Function.new "f" 0 with
    blocks := [
      ⟨0x0, [⟨0x0, [.nop]⟩], [0x10], []⟩,
      ⟨0x10, [⟨0x10, [.cbranch (.constant 1 1) (.absolute 0x10)]⟩], [0x10, 0x20], [0x0, 0x10]⟩,
      ⟨0x20, [⟨0x20, [.ret]⟩], [], [0x10]⟩] }

theorem spin_edgesReversed : EdgesReversed spin := by
  intro b hb a
  simp only [spin, List.mem_cons, List.not_mem_nil, or_false] at hb
  rcases hb with rfl | rfl | rfl <;> simp [spin, eq_comm]

theorem Reachability.wellFounded_below :
    WellFounded fun a b : Reachability => Below a b ∧ a ≠ b := by
  have hrank : ∀ a b : Reachability, Below a b → a ≠ b → a = .reached ∧ b = .top := by
    rintro (_ | _) (_ | _) hab hne
    · exact absurd rfl hne
    · cases hab
    · exact ⟨rfl, rfl⟩
    · exact absurd rfl hne
  refine ⟨fun b => ⟨_, fun a hab => ⟨_, fun c hca => ?_⟩⟩⟩
  obtain ⟨rfl, -⟩ := hrank a b hab.1 hab.2
  exact absurd (hrank c _ hca.1 hca.2).2 (by decide)

theorem markReached_mono (op : Instruction) (a b : Reachability) (_ : Below a b) :
    Below (markReached.transferInstruction op a) (markReached.transferInstruction op b) := rfl

theorem markReached_distributes : Distributes markReached := fun _ _ _ => rfl

theorem solveForward_meetOverPaths_spin :
    ∃ blockIn blockOut : Address → Reachability, SolvesTo spin markReached blockIn blockOut ∧
      ∀ b ∈ spin.blocks,
        IsGLB (arriving spin markReached b.startAddress) (blockIn b.startAddress) ∧
          IsGLB (leaving spin markReached b.startAddress) (blockOut b.startAddress) := by
  obtain ⟨i, o, hsolves, -, hgreatest⟩ := solveForward_meetOverPaths (by decide)
    spin_edgesReversed Reachability.wellFounded_below markReached_mono
  exact ⟨i, o, hsolves, hgreatest markReached_distributes⟩

end Decompiler.Dataflow
