import Decompiler.Cfg.Runs

/-! # Building a graph again

A stream has one graph only, and the graph depends on the addresses of the instructions and on
their branches alone. Building the graph of a graph therefore changes nothing, also when the
operations between the branches have been rewritten.
-/

namespace Decompiler

/-- What the construction of the graph reads of an operation. -/
def Instruction.flow (op : Instruction) : Bool × Bool × Option Address :=
  (op.isTerminator, op.isCbranch, op.branchTarget?)

def LiftedInstruction.skeleton (li : LiftedInstruction) :
    Address × List (Bool × Bool × Option Address) :=
  (li.address, li.ops.map Instruction.flow)

theorem Follows.of_map {α β : Type*} {f : α → β} {l : List α} {u v : β}
    (h : Follows (l.map f) u v) : ∃ x y, Follows l x y ∧ f x = u ∧ f y = v := by
  obtain ⟨i, hu, hv⟩ := h.exists_getElem?
  rw [List.getElem?_map] at hu hv
  obtain ⟨x, hx, rfl⟩ := Option.map_eq_some_iff.mp hu
  obtain ⟨y, hy, rfl⟩ := Option.map_eq_some_iff.mp hv
  exact ⟨x, y, Follows.getElem? hx hy, rfl, rfl⟩

namespace Cfg

section Skeleton

variable {li li' : LiftedInstruction} (h : li'.skeleton = li.skeleton)

include h

theorem address_of_skeleton : li'.address = li.address := (Prod.mk.inj h).1

theorem hasTerminator_of_skeleton (hli : li.hasTerminator) : li'.hasTerminator := by
  obtain ⟨op, hop, hterm⟩ := hli
  have hmem : op.flow ∈ li'.ops.map Instruction.flow := by
    rw [(Prod.mk.inj h).2]
    exact List.mem_map_of_mem hop
  obtain ⟨op', hop', hflow⟩ := List.mem_map.mp hmem
  exact ⟨op', hop', (Prod.mk.inj hflow).1 ▸ hterm⟩

theorem targets_of_skeleton {a : Address} (hli : li.Targets a) : li'.Targets a := by
  obtain ⟨op, hop, htarget⟩ := hli
  have hmem : op.flow ∈ li'.ops.map Instruction.flow := by
    rw [(Prod.mk.inj h).2]
    exact List.mem_map_of_mem hop
  obtain ⟨op', hop', hflow⟩ := List.mem_map.mp hmem
  exact ⟨op', hop', (Prod.mk.inj (Prod.mk.inj hflow).2).2.trans htarget⟩

end Skeleton

variable {flat flat' : List LiftedInstruction} {entry a : Address} {bs cs : List BasicBlock}

theorem IsLeader.of_skeleton (h : flat'.map LiftedInstruction.skeleton =
    flat.map LiftedInstruction.skeleton) (ha : IsLeader flat entry a) :
    IsLeader flat' entry a := by
  have hcopy : ∀ li ∈ flat, ∃ li' ∈ flat', li'.skeleton = li.skeleton := fun li hli =>
    List.mem_map.mp (h ▸ List.mem_map_of_mem hli)
  rcases ha with (hentry | hfirst) | ⟨li, hli, htarget⟩ | ⟨x, y, hxy, hx, hy⟩
  · exact Or.inl (Or.inl hentry)
  · refine Or.inl (Or.inr ?_)
    have hhead : ∀ l : List LiftedInstruction, l.head?.map LiftedInstruction.address =
        (l.map LiftedInstruction.skeleton).head?.map Prod.fst := by
      intro l
      rw [List.head?_map, Option.map_map]
      rfl
    rw [hhead, h, ← hhead, hfirst]
  · obtain ⟨li', hli', hskel⟩ := hcopy li hli
    exact Or.inr (Or.inl ⟨li', hli', targets_of_skeleton hskel htarget⟩)
  · obtain ⟨x', y', hxy', hx', hy'⟩ := Follows.of_map (h ▸ hxy.map LiftedInstruction.skeleton)
    exact Or.inr (Or.inr ⟨x', y', hxy', hasTerminator_of_skeleton hx' hx,
      (address_of_skeleton hy').trans hy⟩)

theorem isLeader_congr (h : flat'.map LiftedInstruction.skeleton =
    flat.map LiftedInstruction.skeleton) : IsLeader flat' entry = IsLeader flat entry := by
  ext a
  exact ⟨.of_skeleton h.symm, .of_skeleton h⟩

theorem scanEdge_eq (known : Finset Address) (next : Option Address) (s : List Address × Bool)
    (op : Instruction) : scanEdge known next s op =
      if op.flow.1 then
        (s.1 ++ op.flow.2.2.toList.filter (· ∈ known) ++
          (if op.flow.2.1 then next.toList else []), true)
      else s := by
  have hpush : ∀ target : BranchTarget,
      pushKnown known target s.1 = s.1 ++ target.address?.toList.filter (· ∈ known) := by
    intro target
    cases target with
    | absolute address =>
      unfold pushKnown
      by_cases hmem : address ∈ known <;> simp [BranchTarget.address?, hmem]
    | indirect => exact (List.append_nil _).symm
  cases op <;> simp [scanEdge, Instruction.flow, Instruction.isTerminator, Instruction.isCbranch,
    Instruction.branchTarget?, hpush]

theorem foldl_scanEdge_congr {known : Finset Address} {next : Option Address}
    {ops ops' : List Instruction} (h : ops'.map Instruction.flow = ops.map Instruction.flow)
    (s : List Address × Bool) :
    ops'.foldl (scanEdge known next) s = ops.foldl (scanEdge known next) s := by
  have hflow : ∀ l : List Instruction, l.foldl (scanEdge known next) s =
      (l.map Instruction.flow).foldl (fun s flow => if flow.1 then
        (s.1 ++ flow.2.2.toList.filter (· ∈ known) ++
          (if flow.2.1 then next.toList else []), true) else s) s := by
    intro l
    rw [List.foldl_map]
    congr 1
    ext s op : 2
    exact scanEdge_eq known next s op
  rw [hflow, h, ← hflow]

/-- A change of a block that its edges do not depend on. -/
structure SameEdges (b c : BasicBlock) : Prop where
  start : c.startAddress = b.startAddress
  successors : c.successors = b.successors
  predecessors : c.predecessors = b.predecessors
  skeleton : c.instructions.map LiftedInstruction.skeleton =
    b.instructions.map LiftedInstruction.skeleton

theorem SameEdges.blockSuccessors_eq {b c : BasicBlock} (h : SameEdges b c)
    (known : Finset Address) (next : Option Address) :
    blockSuccessors known next c = blockSuccessors known next b := by
  have hlast : c.lastInstruction.map LiftedInstruction.skeleton =
      b.lastInstruction.map LiftedInstruction.skeleton := by
    unfold BasicBlock.lastInstruction
    rw [← List.getLast?_map, ← List.getLast?_map, h.skeleton]
  have hops : ((c.lastInstruction.map LiftedInstruction.ops).getD []).map Instruction.flow =
      ((b.lastInstruction.map LiftedInstruction.ops).getD []).map Instruction.flow := by
    have hget : ∀ l : Option LiftedInstruction,
        ((l.map LiftedInstruction.ops).getD []).map Instruction.flow =
          ((l.map LiftedInstruction.skeleton).map Prod.snd).getD [] := by
      intro l
      cases l <;> rfl
    rw [hget, hget, hlast]
  unfold blockSuccessors
  dsimp only
  rw [foldl_scanEdge_congr hops]

section Map

variable {c : BasicBlock → BasicBlock} (hc : ∀ b, SameEdges b (c b))

include hc

theorem map_skeleton_flatMap (bs : List BasicBlock) :
    ((bs.map c).flatMap BasicBlock.instructions).map LiftedInstruction.skeleton =
      (bs.flatMap BasicBlock.instructions).map LiftedInstruction.skeleton := by
  induction bs with
  | nil => rfl
  | cons b bs ih =>
    rw [List.map_cons, List.flatMap_cons, List.flatMap_cons, List.map_append, List.map_append, ih,
      (hc b).skeleton]

theorem startAt_map (bs : List BasicBlock) (i : ℕ) : startAt (bs.map c) i = startAt bs i := by
  unfold startAt
  rw [List.getElem?_map, Option.map_map]
  congr 1
  ext b : 1
  exact (hc b).start

theorem starts_map (bs : List BasicBlock) : starts (bs.map c) = starts bs := by
  unfold starts
  rw [List.map_map]
  congr 2
  ext b : 1
  exact (hc b).start

theorem IsPiece.map {leader : Address → Prop} {b : BasicBlock} (h : IsPiece leader b) :
    IsPiece leader (c b) := by
  obtain ⟨first, rest, hb, haddr, hrest⟩ := h
  have hskel := (hc b).skeleton
  rw [hb, List.map_cons] at hskel
  obtain ⟨first', rest', hb', hfirst, hrest'⟩ := List.map_eq_cons_iff.mp hskel
  refine ⟨first', rest', hb', ?_, ?_⟩
  · rw [address_of_skeleton hfirst, haddr, (hc b).start]
  · intro li' hli'
    obtain ⟨li, hli, hsame⟩ := List.mem_map.mp (hrest' ▸ List.mem_map_of_mem hli')
    rw [← address_of_skeleton hsame]
    exact hrest li hli

theorem IsCfg.map (h : IsCfg flat entry bs) :
    IsCfg ((bs.map c).flatMap BasicBlock.instructions) entry (bs.map c) := by
  have hleader : IsLeader ((bs.map c).flatMap BasicBlock.instructions) entry =
      IsLeader flat entry := by
    apply isLeader_congr
    rw [map_skeleton_flatMap hc, h.split.flatten]
  constructor
  case split =>
    rw [hleader]
    constructor
    case flatten => rfl
    case piece => exact List.forall_mem_map.mpr fun b hb => (h.split.piece b hb).map hc
    case start =>
      intro b' hb'
      obtain ⟨b, hb, rfl⟩ := List.mem_map.mp hb'
      left
      rw [(hc b).start]
      exact (h.split.start b hb).elim id fun hfirst => Or.inl (Or.inr hfirst)
  case connected =>
    constructor
    case successors =>
      intro i b' hb'
      rw [List.getElem?_map] at hb'
      obtain ⟨b, hb, rfl⟩ := Option.map_eq_some_iff.mp hb'
      rw [(hc b).successors, starts_map hc, startAt_map hc, (hc b).blockSuccessors_eq,
        h.connected.successors i b hb]
    case predecessors_sorted =>
      intro b' hb'
      obtain ⟨b, hb, rfl⟩ := List.mem_map.mp hb'
      rw [(hc b).predecessors]
      exact h.connected.predecessors_sorted b hb
    case mem_predecessors =>
      intro b' hb' a
      obtain ⟨b, hb, rfl⟩ := List.mem_map.mp hb'
      rw [(hc b).predecessors, h.connected.mem_predecessors b hb, (hc b).start]
      constructor
      · rintro ⟨d, hd, hda, hmem⟩
        exact ⟨c d, List.mem_map_of_mem hd, (hc d).start.trans hda, (hc d).successors ▸ hmem⟩
      · rintro ⟨d', hd', hda, hmem⟩
        obtain ⟨d, hd, rfl⟩ := List.mem_map.mp hd'
        exact ⟨d, hd, (hc d).start ▸ hda, (hc d).successors ▸ hmem⟩

end Map

section Unique

variable {leader : Address → Prop}

theorem append_inj_of_first {α : Type*} {p : α → Prop} {r r' l l' : List α}
    (hr : ∀ x ∈ r, ¬ p x) (hr' : ∀ x ∈ r', ¬ p x) (hl : ∀ x ∈ l.head?, p x)
    (hl' : ∀ x ∈ l'.head?, p x) (h : r ++ l = r' ++ l') : r = r' ∧ l = l' := by
  have hnil : ∀ {r r' l l' : List α}, (∀ x ∈ r', ¬ p x) → (∀ x ∈ l.head?, p x) →
      ∀ as, r' = r ++ as → l = as ++ l' → as = [] := by
    rintro r r' l l' hr' hl as rfl rfl
    cases as with
    | nil => rfl
    | cons x as => exact absurd (hl x rfl) (hr' x (by simp))
  rcases List.append_eq_append_iff.mp h with ⟨as, hr₀, hl₀⟩ | ⟨as, hr₀, hl₀⟩
  · obtain rfl := hnil hr' hl as hr₀ hl₀
    exact ⟨by simpa using hr₀.symm, by simpa using hl₀⟩
  · obtain rfl := hnil hr hl' as hr₀ hl₀
    exact ⟨by simpa using hr₀, by simpa using hl₀.symm⟩

theorem leader_of_mem_head? (hb : ∀ b ∈ bs, IsPiece leader b ∧ leader b.startAddress)
    {li : LiftedInstruction} (hli : li ∈ (bs.flatMap BasicBlock.instructions).head?) :
    leader li.address := by
  cases bs with
  | nil => cases hli
  | cons b bs =>
    obtain ⟨⟨first, rest, hfirst, haddr, -⟩, hstart⟩ := hb b List.mem_cons_self
    rw [List.flatMap_cons, hfirst] at hli
    obtain rfl := Option.some.inj hli
    rwa [haddr]

/-- The pieces that a leader starts divide a stream in one way only. -/
theorem core_unique (hb : ∀ b ∈ bs, IsPiece leader b ∧ leader b.startAddress)
    (hc : ∀ c ∈ cs, IsPiece leader c ∧ leader c.startAddress)
    (h : bs.flatMap BasicBlock.instructions = cs.flatMap BasicBlock.instructions) :
    bs.map core = cs.map core := by
  induction bs generalizing cs with
  | nil =>
    cases cs with
    | nil => rfl
    | cons c cs =>
      obtain ⟨⟨first, rest, hfirst, -⟩, -⟩ := hc c List.mem_cons_self
      rw [List.flatMap_nil, List.flatMap_cons, hfirst] at h
      cases h
  | cons b bs ih =>
    obtain ⟨⟨first, rest, hfirst, haddr, hrest⟩, -⟩ := hb b List.mem_cons_self
    cases cs with
    | nil =>
      rw [List.flatMap_nil, List.flatMap_cons, hfirst] at h
      cases h
    | cons c cs =>
      obtain ⟨⟨first', rest', hfirst', haddr', hrest'⟩, -⟩ := hc c List.mem_cons_self
      have hbs := fun d hd => hb d (List.mem_cons_of_mem _ hd)
      have hcs := fun d hd => hc d (List.mem_cons_of_mem _ hd)
      rw [List.flatMap_cons, List.flatMap_cons, hfirst, hfirst'] at h
      obtain ⟨rfl, htail⟩ := List.cons.inj h
      obtain ⟨rfl, hflat⟩ := append_inj_of_first hrest hrest'
        (fun _ hli => leader_of_mem_head? hbs hli) (fun _ hli => leader_of_mem_head? hcs hli) htail
      have hcore : core b = core c := by
        unfold core
        rw [← haddr, ← haddr', hfirst, hfirst']
      rw [List.map_cons, List.map_cons, hcore, ih hbs hcs hflat]

end Unique

section Graphs

variable (hb : IsCfg flat entry bs) (hc : IsCfg flat entry cs)

include hb hc

theorem IsCfg.core_eq : bs.map core = cs.map core := by
  have hpieces : ∀ {ds}, IsCfg flat entry ds →
      ∀ d ∈ ds, IsPiece (IsLeader flat entry) d ∧ IsLeader flat entry d.startAddress :=
    fun h d hd => ⟨h.split.piece d hd,
      (h.split.start d hd).elim id fun hfirst => Or.inl (Or.inr hfirst)⟩
  exact core_unique (hpieces hb) (hpieces hc) (hb.split.flatten.trans hc.split.flatten.symm)

theorem IsCfg.exists_same {i : ℕ} {b : BasicBlock} (hi : bs[i]? = some b) :
    ∃ c, cs[i]? = some c ∧ core b = core c ∧ b.successors = c.successors := by
  have hcore := hb.core_eq hc
  obtain ⟨c, hj, hbc⟩ := exists_getElem?_of_core hcore hi
  refine ⟨c, hj, hbc, ?_⟩
  rw [hb.connected.successors i b hi, hc.connected.successors i c hj, starts_congr hcore,
    startAt_congr hcore]
  exact blockSuccessors_congr (Prod.mk.inj hbc).2

theorem IsCfg.mem_predecessors_of_same {b c : BasicBlock} (hbm : b ∈ bs) (hcm : c ∈ cs)
    (hbc : core b = core c) (hmem : a ∈ b.predecessors) : a ∈ c.predecessors := by
  rw [hb.connected.mem_predecessors b hbm] at hmem
  obtain ⟨d, hd, hda, hsucc⟩ := hmem
  obtain ⟨i, hi⟩ := List.getElem?_of_mem hd
  obtain ⟨e, hj, hde, hsame⟩ := hb.exists_same hc hi
  rw [hc.connected.mem_predecessors c hcm]
  refine ⟨e, List.mem_of_getElem? hj, ?_, ?_⟩
  · rw [← hda, (Prod.mk.inj hde).1]
  · rwa [← hsame, ← (Prod.mk.inj hbc).1]

theorem IsCfg.unique : bs = cs := by
  ext1 i
  cases hi : bs[i]? with
  | none =>
    cases hj : cs[i]? with
    | none => rfl
    | some c =>
      obtain ⟨b, hb', -⟩ := hc.exists_same hb hj
      rw [hi] at hb'
      cases hb'
  | some b =>
    obtain ⟨c, hj, hbc, hsucc⟩ := hb.exists_same hc hi
    have hbm := List.mem_of_getElem? hi
    have hcm := List.mem_of_getElem? hj
    have hpred : b.predecessors = c.predecessors := by
      apply List.Pairwise.eq_of_mem_iff (hb.connected.predecessors_sorted b hbm)
        (hc.connected.predecessors_sorted c hcm)
      intro a
      exact ⟨hb.mem_predecessors_of_same hc hbm hcm hbc,
        hc.mem_predecessors_of_same hb hcm hbm hbc.symm⟩
    obtain ⟨hstart, hinstr⟩ := Prod.mk.inj hbc
    have heq : b = c := by
      cases b
      cases c
      simp_all
    rw [hj, heq]

end Graphs

/-- Building a function whose blocks are the graph of their stream keeps them. -/
theorem build_of_isCfg {g : Function} (h : IsCfg (stream g) g.entry g.blocks)
    (hnd : ((stream g).map LiftedInstruction.address).Nodup) :
    ∃ g', build g = .ok g' ∧ g'.blocks = g.blocks := by
  obtain ⟨bs, hbs, hbuild⟩ := build_eq_ok g hnd
  refine ⟨_, hbuild, ?_⟩
  rw [h.unique hbs]
  split <;> rfl

theorem build_isCfg {f : Function} (hnd : ((stream f).map LiftedInstruction.address).Nodup) :
    ∃ g, build f = .ok g ∧ stream g = stream f ∧ IsCfg (stream g) g.entry g.blocks := by
  obtain ⟨bs, hbs, hbuild⟩ := build_eq_ok f hnd
  have hkeep : ∀ g : Function, g.blocks = bs → g.entry = f.entry →
      stream g = stream f ∧ IsCfg (stream g) g.entry g.blocks := by
    intro g hblocks hentry
    have hstream : stream g = stream f := by rw [stream, hblocks, hbs.split.flatten]
    rw [hstream, hentry, hblocks]
    exact ⟨rfl, hbs⟩
  refine ⟨_, hbuild, ?_⟩
  split
  · exact hkeep _ rfl rfl
  · exact hkeep _ rfl rfl

end Cfg

end Decompiler
