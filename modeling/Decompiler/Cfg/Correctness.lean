import Decompiler.Cfg.Edges

/-! # The graph of a stream

What the construction leaves behind, and the agreement of its runs with those of
the flat instruction stream.
-/

namespace Decompiler.Cfg

variable {bs : List BasicBlock} {flat : List LiftedInstruction} {entry : Address}

def core (b : BasicBlock) : Address × List LiftedInstruction := (b.startAddress, b.instructions)

theorem map_core_zipWith {β : Type} {g : BasicBlock → β → BasicBlock}
    (hg : ∀ b x, core (g b x) = core b) {xs : List β} (hlen : xs.length = bs.length) :
    (bs.zipWith g xs).map core = bs.map core := by
  induction bs generalizing xs with
  | nil => simp
  | cons b bs ih =>
    cases xs with
    | nil => simp at hlen
    | cons x xs => simp [hg, ih (Nat.succ.inj hlen)]

section Core

variable {cs : List BasicBlock} (h : cs.map core = bs.map core)

include h

theorem map_startAddress_congr :
    cs.map BasicBlock.startAddress = bs.map BasicBlock.startAddress := by
  simpa [core, Function.comp_def] using congrArg (List.map Prod.fst) h

theorem startAt_congr (i : ℕ) : startAt cs i = startAt bs i := by
  simp only [startAt, ← List.getElem?_map, map_startAddress_congr h]

theorem starts_congr : starts cs = starts bs := by
  simp only [starts, map_startAddress_congr h]

theorem exists_getElem?_of_core {i : ℕ} {c : BasicBlock} (hc : cs[i]? = some c) :
    ∃ b, bs[i]? = some b ∧ core c = core b := by
  have hi : (cs.map core)[i]? = some (core c) := by simp [hc]
  rw [h, List.getElem?_map] at hi
  obtain ⟨b, hb, hcb⟩ := Option.map_eq_some_iff.mp hi
  exact ⟨b, hb, hcb.symm⟩

theorem exists_mem_of_core {c : BasicBlock} (hc : c ∈ cs) : ∃ b ∈ bs, core c = core b := by
  have hm : core c ∈ bs.map core := h ▸ List.mem_map_of_mem hc
  obtain ⟨b, hb, hcb⟩ := List.mem_map.mp hm
  exact ⟨b, hb, hcb.symm⟩

theorem IsSplit.congr {leader : Address → Prop} (hs : IsSplit leader flat bs) :
    IsSplit leader flat cs where
  flatten := by
    have hf : ∀ l : List BasicBlock, l.flatMap BasicBlock.instructions =
        (l.map core).flatMap Prod.snd := fun l => by rw [List.flatMap_map]; rfl
    rw [hf, h, ← hf, hs.flatten]
  piece c hc := by
    obtain ⟨b, hb, hcb⟩ := exists_mem_of_core h hc
    obtain ⟨ha, hi⟩ := Prod.mk.inj hcb
    obtain ⟨first, rest, hfr, hfirst, hrest⟩ := hs.piece b hb
    exact ⟨first, rest, hi.trans hfr, hfirst.trans ha.symm, hrest⟩
  start c hc := by
    obtain ⟨b, hb, hcb⟩ := exists_mem_of_core h hc
    rw [(Prod.mk.inj hcb).1]
    exact hs.start b hb

end Core

theorem blockSuccessors_congr {known : Finset Address} {next : Option Address}
    {b c : BasicBlock} (h : b.instructions = c.instructions) :
    blockSuccessors known next b = blockSuccessors known next c := by
  unfold blockSuccessors BasicBlock.lastInstruction
  rw [h]

/-- A list of blocks with the edges that their instructions prescribe. -/
structure Connected (bs : List BasicBlock) : Prop where
  successors : ∀ i b, bs[i]? = some b →
    b.successors = blockSuccessors (starts bs) (startAt bs (i + 1)) b
  predecessors_sorted : ∀ b ∈ bs, b.predecessors.Pairwise (· < ·)
  mem_predecessors : ∀ b ∈ bs, ∀ a, a ∈ b.predecessors ↔
    ∃ c ∈ bs, c.startAddress = a ∧ b.startAddress ∈ c.successors

theorem connectEdges_eq_ok (hnd : (bs.map BasicBlock.startAddress).Nodup) :
    ∃ cs, connectEdges bs = .ok cs ∧ cs.map core = bs.map core ∧ Connected cs := by
  obtain ⟨ss, hss, hlen, hsucc⟩ := allSuccessors_eq_ok bs
  set withSuccs := bs.zipWith (fun b succs => { b with successors := succs }) ss with hws
  have hcore₁ : withSuccs.map core = bs.map core :=
    map_core_zipWith (g := fun b succs => { b with successors := succs }) (fun _ _ => rfl) hlen
  have hlen₁ : withSuccs.length = bs.length := by simp [hws, hlen]
  have hnd₁ : (withSuccs.map BasicBlock.startAddress).Nodup := by
    rwa [map_startAddress_congr hcore₁]
  obtain ⟨ps, hps, hlenp, hpred⟩ := allPredecessors_eq_ok hnd₁ (hlen.trans hlen₁.symm)
  set cs := withSuccs.zipWith (fun b p => { b with predecessors := sortDedup p }) ps with hcs
  have hcore : cs.map core = bs.map core :=
    (map_core_zipWith (g := fun b p => { b with predecessors := sortDedup p }) (fun _ _ => rfl)
      hlenp).trans hcore₁
  -- the block at a position, with the two lists that were computed for it
  have hget : ∀ (i : ℕ) c, cs[i]? = some c → ∃ (b : BasicBlock) (succs p : List Address),
      bs[i]? = some b ∧ ss[i]? = some succs ∧ ps[i]? = some p ∧
        c = { b with successors := succs, predecessors := sortDedup p } := by
    intro i c hc
    rw [hcs, hws, List.getElem?_zipWith, List.getElem?_zipWith] at hc
    cases hb : bs[i]? with
    | none => simp [hb] at hc
    | some b =>
      cases hs : ss[i]? with
      | none => simp [hb, hs] at hc
      | some succs =>
        cases hp : ps[i]? with
        | none => simp [hp] at hc
        | some p => exact ⟨b, succs, p, rfl, rfl, rfl, by simpa [hb, hs, hp] using hc.symm⟩
  have hedges : connectEdges bs = .ok cs := by
    rw [connectEdges, hss, Fallible.ok_bind]
    exact (congrArg (· >>= _) hps).trans (Fallible.ok_bind _ _)
  refine ⟨cs, hedges, hcore, ?_, ?_, ?_⟩
  · intro i c hc
    obtain ⟨b, succs, p, hb, hs, -, rfl⟩ := hget i c hc
    obtain ⟨hi, rfl⟩ := List.getElem?_eq_some_iff.mp hb
    rw [startAt_congr hcore, starts_congr hcore]
    refine Eq.trans ?_ (blockSuccessors_congr rfl)
    exact Option.some.inj (hs.symm.trans (hsucc i hi))
  · intro c hc
    obtain ⟨i, hi⟩ := List.getElem?_of_mem hc
    obtain ⟨b, succs, p, -, -, -, rfl⟩ := hget i c hi
    exact pairwise_lt_sortDedup p
  · intro c hc a
    obtain ⟨k, hk⟩ := List.getElem?_of_mem hc
    obtain ⟨b, succs, p, hb, -, hp, rfl⟩ := hget k c hk
    have hstart : startAt withSuccs k = some b.startAddress := by
      rw [startAt_congr hcore₁, startAt, hb]
      rfl
    have hmem : a ∈ p ↔ Has ps k a := by simp [Has, hp]
    rw [mem_sortDedup, hmem, hpred]
    constructor
    · rintro ⟨i, s, hi, ⟨succs', hs', hmem'⟩, hks⟩
      obtain rfl := Option.some.inj (hstart.symm.trans hks)
      rw [startAt_congr hcore₁, ← startAt_congr hcore] at hi
      obtain ⟨d, hd, hda⟩ := Option.map_eq_some_iff.mp hi
      refine ⟨d, List.mem_of_getElem? hd, hda, ?_⟩
      obtain ⟨_, _, _, -, hs, -, rfl⟩ := hget i d hd
      rwa [Option.some.inj (hs.symm.trans hs')]
    · rintro ⟨d, hd, hda, hmem'⟩
      obtain ⟨i, hi⟩ := List.getElem?_of_mem hd
      obtain ⟨e, succs', _, he, hs, -, rfl⟩ := hget i d hi
      refine ⟨i, b.startAddress, ?_, ⟨succs', hs, hmem'⟩, hstart⟩
      rw [startAt_congr hcore₁, startAt, he]
      exact congrArg some hda

/-- The graph of a stream: its blocks partition the stream at the leaders and
their edges are those of their last instructions. -/
structure IsCfg (flat : List LiftedInstruction) (entry : Address) (bs : List BasicBlock) :
    Prop where
  split : IsSplit (IsLeader flat entry) flat bs
  connected : Connected bs

def stream (f : Function) : List LiftedInstruction := f.blocks.flatMap BasicBlock.instructions

/-- The construction succeeds on every stream with distinct addresses. -/
theorem build_eq_ok (f : Function) (hnd : ((stream f).map LiftedInstruction.address).Nodup) :
    ∃ bs, IsCfg (stream f) f.entry bs ∧
      build f = .ok (if stream f = [] then { f with blocks := bs }
        else { f with blocks := bs }.rebuildIndex) := by
  by_cases hempty : stream f = []
  · refine ⟨[], ⟨⟨hempty.symm, by simp, by simp⟩, ⟨by simp, by simp, by simp⟩⟩, ?_⟩
    rw [build, ← stream, hempty]
    rfl
  · obtain ⟨leaders, hleaders, hmem⟩ := findLeaders_eq_ok f.entry hempty
    obtain ⟨bs, hbs, hsplit⟩ := splitAtLeaders_eq_ok (stream f) leaders
    obtain ⟨cs, hcs, hcore, hconn⟩ := connectEdges_eq_ok (hsplit.starts_sublist.nodup hnd)
    have hpred : (· ∈ leaders) = IsLeader (stream f) f.entry := funext fun a => propext (hmem a)
    refine ⟨cs, ⟨(hpred ▸ hsplit).congr hcore, hconn⟩, ?_⟩
    rw [build, ← stream]
    simp only [hempty, if_false, hleaders, Fallible.ok_bind, hbs, hcs]
    rfl

end Decompiler.Cfg
