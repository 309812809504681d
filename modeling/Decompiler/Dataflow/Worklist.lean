import Decompiler.Dataflow.Solver

/-! # The worklist

Every block that is not queued satisfies its equation for the current OUT states.
This needs no law of the lattice: it rests on the queue alone, and on the edges
being recorded in both directions.
-/

namespace Decompiler.Dataflow

variable {S : Type*}

theorem blockByAddr_concat (f : Function) (bs : List BasicBlock) (b : BasicBlock) :
    blockByAddr { f with blocks := bs ++ [b] } =
      Function.update (blockByAddr { f with blocks := bs }) b.startAddress (some b) := by
  simp [blockByAddr]

theorem mem_of_blockByAddr {f : Function} {a : Address} {b : BasicBlock}
    (h : blockByAddr f a = some b) : b ∈ f.blocks ∧ b.startAddress = a := by
  obtain ⟨name, entry, bs, types, ast, idx⟩ := f
  induction bs using List.reverseRecOn with
  | nil => cases h
  | append_singleton bs c ih =>
    rw [show blockByAddr ⟨name, entry, bs ++ [c], types, ast, idx⟩ = _ from
      blockByAddr_concat ⟨name, entry, bs, types, ast, idx⟩ bs c] at h
    by_cases ha : a = c.startAddress
    · subst ha
      rw [Function.update_self] at h
      obtain rfl := Option.some.inj h
      exact ⟨List.mem_append_right _ (List.mem_singleton_self _), rfl⟩
    · rw [Function.update_of_ne ha] at h
      obtain ⟨hb, hba⟩ := ih h
      exact ⟨List.mem_append_left _ hb, hba⟩

theorem blockByAddr_eq_some {f : Function}
    (hnd : (f.blocks.map BasicBlock.startAddress).Nodup) {a : Address} {b : BasicBlock} :
    blockByAddr f a = some b ↔ b ∈ f.blocks ∧ b.startAddress = a := by
  obtain ⟨name, entry, bs, types, ast, idx⟩ := f
  induction bs using List.reverseRecOn with
  | nil => simp [blockByAddr]
  | append_singleton bs c ih =>
    simp only [List.map_append, List.nodup_append] at hnd
    have ih := ih hnd.1
    have hc : ∀ d ∈ bs, d.startAddress ≠ c.startAddress := fun d hd =>
      hnd.2.2 _ (List.mem_map_of_mem hd) _ (by simp)
    rw [show blockByAddr ⟨name, entry, bs ++ [c], types, ast, idx⟩ = _ from
      blockByAddr_concat ⟨name, entry, bs, types, ast, idx⟩ bs c]
    by_cases ha : a = c.startAddress
    · subst ha
      simp only [Function.update_self, Option.some.injEq, List.mem_append, List.mem_singleton]
      constructor
      · rintro rfl
        exact ⟨Or.inr rfl, rfl⟩
      · rintro ⟨hb | hb, hba⟩
        · exact absurd hba (hc b hb)
        · exact hb.symm
    · rw [Function.update_of_ne ha, ih]
      simp only [List.mem_append, List.mem_singleton]
      constructor
      · exact fun h => ⟨Or.inl h.1, h.2⟩
      · rintro ⟨hb | rfl, hba⟩
        · exact ⟨hb, hba⟩
        · exact absurd hba.symm ha

theorem blockByAddr_eq_none {f : Function}
    (hnd : (f.blocks.map BasicBlock.startAddress).Nodup) {a : Address} :
    blockByAddr f a = none ↔ ∀ b ∈ f.blocks, b.startAddress ≠ a := by
  rw [Option.eq_none_iff_forall_ne_some]
  exact ⟨fun h b hb hba => h b ((blockByAddr_eq_some hnd).mpr ⟨hb, hba⟩),
    fun h b hb => h b ((blockByAddr_eq_some hnd).mp hb).1 ((blockByAddr_eq_some hnd).mp hb).2⟩

section Enqueue

/-- The queue and the set of queued addresses agree. -/
structure QueueOk (q : List Address × Finset Address) : Prop where
  mem_iff : ∀ a, a ∈ q.2 ↔ a ∈ q.1
  nodup : q.1.Nodup

theorem QueueOk.enqueue {q : List Address × Finset Address} (h : QueueOk q) (a : Address) :
    QueueOk (enqueue q a) ∧ ∀ x, x ∈ (enqueue q a).1 ↔ x ∈ q.1 ∨ x = a := by
  unfold Dataflow.enqueue
  split
  case isTrue ha =>
    have ha := (h.mem_iff a).mp ha
    refine ⟨h, fun x => ⟨Or.inl, ?_⟩⟩
    rintro (hx | rfl) <;> assumption
  case isFalse ha =>
    have ha' : a ∉ q.1 := fun hm => ha ((h.mem_iff a).mpr hm)
    refine ⟨⟨fun x => ?_, ?_⟩, fun x => by simp⟩
    · rw [Finset.mem_insert, h.mem_iff, List.mem_append, List.mem_singleton, or_comm]
    · exact List.Nodup.append h.nodup (List.nodup_singleton a) (by simpa using ha')

theorem QueueOk.foldl_enqueue {q : List Address × Finset Address} (h : QueueOk q)
    (succs : List Address) :
    QueueOk (succs.foldl Dataflow.enqueue q) ∧
      ∀ x, x ∈ (succs.foldl Dataflow.enqueue q).1 ↔ x ∈ q.1 ∨ x ∈ succs := by
  induction succs generalizing q with
  | nil => exact ⟨h, by simp⟩
  | cons a succs ih =>
    obtain ⟨hq, hmem⟩ := h.enqueue a
    obtain ⟨hq', hmem'⟩ := ih hq
    refine ⟨hq', fun x => ?_⟩
    rw [List.foldl_cons, hmem', hmem, List.mem_cons, or_assoc]

theorem length_foldl_enqueue (succs : List Address) (q : List Address × Finset Address) :
    (succs.foldl Dataflow.enqueue q).1.length ≤ q.1.length + succs.length := by
  induction succs generalizing q with
  | nil => exact Nat.le_refl _
  | cons a succs ih =>
    have hlen : (Dataflow.enqueue q a).1.length ≤ q.1.length + 1 := by
      unfold Dataflow.enqueue
      split <;> simp
    have hrest := ih (Dataflow.enqueue q a)
    rw [List.foldl_cons, List.length_cons]
    omega

theorem QueueOk.pop {a : Address} {queue : List Address} {queued : Finset Address}
    (h : QueueOk (a :: queue, queued)) : QueueOk (queue, queued.erase a) where
  mem_iff x := by
    have ha : a ∉ queue := (List.nodup_cons.mp h.nodup).1
    rw [Finset.mem_erase, h.mem_iff, List.mem_cons]
    constructor
    · rintro ⟨hne, rfl | hx⟩
      · exact absurd rfl hne
      · exact hx
    · exact fun hx => ⟨fun he => ha (he ▸ hx), Or.inr hx⟩
  nodup := (List.nodup_cons.mp h.nodup).2

end Enqueue

variable [Lattice S]

abbrev inOf (b : BasicBlock) (blockOut : Address → Option S) : S :=
  mergePredecessorStates b blockOut

abbrev outOf (transfer : TransferFunction S) (b : BasicBlock) (blockOut : Address → Option S) : S :=
  transferBlock b (mergePredecessorStates b blockOut) transfer

theorem inOf_congr {b : BasicBlock} {o o' : Address → Option S}
    (h : ∀ p ∈ b.predecessors, o p = o' p) : inOf b o = inOf b o' := by
  unfold inOf mergePredecessorStates
  split
  · rfl
  · refine congrArg (Option.getD · Lattice.top) (List.foldl_ext _ _ _ fun acc p hp => ?_)
    simp only [h p hp]

/-- The accumulator of the source starts from the first predecessor. -/
theorem inOf_eq_foldl {b : BasicBlock} {p : Address} {l : List Address}
    (hp : b.predecessors = p :: l) (x : Address → S) :
    inOf b (fun p => some (x p)) = l.foldl (fun acc q => Lattice.merge acc (x q)) (x p) := by
  unfold inOf mergePredecessorStates
  simp only [hp, reduceCtorEq, if_false, Option.getD_some, List.foldl_cons]
  refine congrArg (Option.getD · Lattice.top) (?_ : _ = some _)
  exact List.foldl_hom some fun _ _ => rfl

theorem inOf_eq_top {b : BasicBlock} (hp : b.predecessors = []) (o : Address → Option S) :
    inOf b o = Lattice.top := by
  simp [inOf, mergePredecessorStates, hp]

omit [Lattice S] in
theorem transferBlock_eq_foldl (transfer : TransferFunction S) (b : BasicBlock)
    (s : S) :
    transferBlock b s transfer = b.ops.foldl (fun s op => transfer.transferInstruction op s) s := by
  rw [transferBlock, BasicBlock.ops, List.foldl_flatMap]

theorem outOf_of_closed {K : S → Prop} (htop : K Lattice.top)
    (hmerge : ∀ s t, K s → K t → K (Lattice.merge s t)) {transfer : TransferFunction S}
    {b : BasicBlock} (hop : ∀ op ∈ b.ops, ∀ s, K s → K (transfer.transferInstruction op s))
    {x : Address → S} (hx : ∀ a, K (x a)) : K (outOf transfer b fun p => some (x p)) := by
  have hin : K (inOf b fun p => some (x p)) := by
    cases hp : b.predecessors with
    | nil =>
      rw [inOf_eq_top hp]
      exact htop
    | cons p l =>
      rw [inOf_eq_foldl hp]
      exact List.foldlRecOn l _ (hx p) fun s hs q _ => hmerge s _ hs (hx q)
  rw [outOf, transferBlock_eq_foldl]
  exact List.foldlRecOn b.ops _ hin fun s hs op hmem => hop op hmem s hs

/-- The predecessors of a block are the starts of the blocks it is a successor of. -/
def EdgesReversed (f : Function) : Prop :=
  ∀ b ∈ f.blocks, ∀ a, a ∈ b.predecessors ↔
    ∃ c ∈ f.blocks, c.startAddress = a ∧ b.startAddress ∈ c.successors

variable {f : Function} {transfer : TransferFunction S} {st st' : SolverState S}

structure Consistent (f : Function) (transfer : TransferFunction S) (st : SolverState S) :
    Prop where
  queue : QueueOk (st.queue, st.queued)
  isSome : ∀ a, (st.blockOut a).isSome ↔ ∃ b ∈ f.blocks, b.startAddress = a
  settled : ∀ b ∈ f.blocks, b.startAddress ∉ st.queue →
    st.blockIn b.startAddress = some (inOf b st.blockOut) ∧
      st.blockOut b.startAddress = some (outOf transfer b st.blockOut)

theorem consistent_init (hnd : (f.blocks.map BasicBlock.startAddress).Nodup) :
    Consistent f transfer (solveInit f : SolverState S) where
  queue := ⟨fun a => List.mem_toFinset, hnd⟩
  isSome a := by simp [solveInit, Option.isSome_ite]
  settled b hb hq := absurd (List.mem_map_of_mem hb) hq

/-- A result in which every block satisfies its two equations. -/
def Solved (f : Function) (transfer : TransferFunction S) (r : DataflowResult S) : Prop :=
  ∀ b ∈ f.blocks, r.blockIn b.startAddress = some (inOf b r.blockOut) ∧
    r.blockOut b.startAddress = some (outOf transfer b r.blockOut)

theorem Consistent.solved (h : Consistent f transfer st) (hq : st.queue = []) :
    Solved f transfer st.toDataflowResult := fun b hb =>
  h.settled b hb (by simp [hq])

variable [DecidableEq S]

/-- Everything one iteration can do: pop an address without a block, confirm the
OUT state of a block, or change it and queue the successors. -/
theorem solveStep_cases (h : solveStep f transfer st = some st') :
    ∃ addr queue, st.queue = addr :: queue ∧
      ((blockByAddr f addr = none ∧
          st' = { st with queue := queue, queued := st.queued.erase addr }) ∨
        ∃ b, blockByAddr f addr = some b ∧
          ((st.blockOut addr = some (outOf transfer b st.blockOut) ∧
              st' = { st with
                blockIn := Function.update st.blockIn addr (some (inOf b st.blockOut))
                queue := queue, queued := st.queued.erase addr }) ∨
            (st.blockOut addr ≠ some (outOf transfer b st.blockOut) ∧
              st' = {
                blockIn := Function.update st.blockIn addr (some (inOf b st.blockOut))
                blockOut :=
                  Function.update st.blockOut addr (some (outOf transfer b st.blockOut))
                queue := (b.successors.foldl enqueue (queue, st.queued.erase addr)).1
                queued := (b.successors.foldl enqueue (queue, st.queued.erase addr)).2 }))) := by
  unfold solveStep at h
  split at h
  case h_1 => cases h
  case h_2 addr queue hq =>
    refine ⟨addr, queue, hq, ?_⟩
    simp only at h
    split at h
    case h_1 hb => exact Or.inl ⟨hb, (Option.some.inj h).symm⟩
    case h_2 b hb =>
      refine Or.inr ⟨b, hb, ?_⟩
      split at h
      case isTrue ho => exact Or.inl ⟨ho, (Option.some.inj h).symm⟩
      case isFalse ho => exact Or.inr ⟨ho, (Option.some.inj h).symm⟩

theorem solveStep_eq_none : solveStep f transfer st = none ↔ st.queue = [] := by
  unfold solveStep
  constructor
  · intro h
    split at h
    case h_1 hq => exact hq
    case h_2 addr queue hq =>
      simp only at h
      split at h
      · cases h
      · split at h <;> cases h
  · intro h
    rw [h]

/-- The invariant rule of the solver: what every iteration keeps holds at the end,
where the queue is empty. -/
theorem solveLoop_invariant {P : SolverState S → Prop}
    (hstep : ∀ st st', P st → solveStep f transfer st = some st' → P st') {fuel : ℕ}
    {r : DataflowResult S} (hP : P st) (h : solveLoop f transfer fuel st = .ok r) :
    ∃ st', P st' ∧ st'.queue = [] ∧ st'.toDataflowResult = r := by
  induction fuel generalizing st with
  | zero => cases h
  | succ fuel ih =>
    rw [solveLoop] at h
    split at h
    case h_1 hn => exact ⟨st, hP, solveStep_eq_none.mp hn, Except.ok.inj h⟩
    case h_2 st' hs => exact ih (hstep st st' hP hs) h

theorem solveLoop_mono {fuel fuel' : ℕ} {r : DataflowResult S} (hle : fuel ≤ fuel')
    (h : solveLoop f transfer fuel st = .ok r) : solveLoop f transfer fuel' st = .ok r := by
  induction fuel generalizing st fuel' with
  | zero => cases h
  | succ fuel ih =>
    obtain ⟨k, rfl⟩ : ∃ k, fuel' = k + 1 := ⟨fuel' - 1, by omega⟩
    rw [solveLoop] at h ⊢
    split at h
    case h_1 => exact h
    case h_2 st' _ => exact ih (by omega) h

theorem Consistent.step (hnd : (f.blocks.map BasicBlock.startAddress).Nodup)
    (hrev : EdgesReversed f) (h : Consistent f transfer st)
    (hs : solveStep f transfer st = some st') : Consistent f transfer st' := by
  obtain ⟨addr, queue, hq, hcase⟩ := solveStep_cases hs
  have hpop : QueueOk (queue, st.queued.erase addr) := by
    have hok := h.queue
    rw [hq] at hok
    exact hok.pop
  -- a block that was neither popped nor queued was settled before
  have hold : ∀ b ∈ f.blocks, b.startAddress ∉ queue → b.startAddress ≠ addr →
      st.blockIn b.startAddress = some (inOf b st.blockOut) ∧
        st.blockOut b.startAddress = some (outOf transfer b st.blockOut) := by
    intro b hb hbq hba
    exact h.settled b hb (by rw [hq, List.mem_cons]; tauto)
  rcases hcase with ⟨hnone, rfl⟩ | ⟨b, hb, ⟨hout, rfl⟩ | ⟨hout, rfl⟩⟩
  · have hne := (blockByAddr_eq_none hnd).mp hnone
    exact ⟨hpop, h.isSome, fun b hb hbq => hold b hb hbq (hne b hb)⟩
  · obtain ⟨hbm, rfl⟩ := (blockByAddr_eq_some hnd).mp hb
    refine ⟨hpop, h.isSome, fun c hc hcq => ?_⟩
    by_cases hcb : c.startAddress = b.startAddress
    · obtain rfl := List.inj_on_of_nodup_map hnd hc hbm hcb
      exact ⟨Function.update_self .., hout⟩
    · have hc' := hold c hc hcq hcb
      exact ⟨by simpa [hcb] using hc'.1, hc'.2⟩
  · obtain ⟨hbm, rfl⟩ := (blockByAddr_eq_some hnd).mp hb
    obtain ⟨hok, hmem⟩ := hpop.foldl_enqueue b.successors
    refine ⟨hok, fun a => ?_, fun c hc hcq => ?_⟩
    · by_cases ha : a = b.startAddress
      · subst ha
        simpa using ⟨b, hbm, rfl⟩
      · simpa [ha] using h.isSome a
    · -- the changed block is not a predecessor of a block that stays out of the queue
      obtain ⟨hcq', hcs⟩ := not_or.mp (mt (hmem _).mpr hcq)
      have hpred : b.startAddress ∉ c.predecessors := by
        intro hp
        obtain ⟨d, hd, hdb, hcd⟩ := (hrev c hc _).mp hp
        obtain rfl := List.inj_on_of_nodup_map hnd hd hbm hdb
        exact hcs hcd
      have hin : inOf c (Function.update st.blockOut b.startAddress
          (some (outOf transfer b st.blockOut))) = inOf c st.blockOut :=
        inOf_congr fun p hp => Function.update_of_ne (by rintro rfl; exact hpred hp) _ _
      have hout' : outOf transfer c (Function.update st.blockOut b.startAddress
          (some (outOf transfer b st.blockOut))) = outOf transfer c st.blockOut :=
        congrArg (transferBlock c · transfer) hin
      rw [hin, hout']
      by_cases hcb : c.startAddress = b.startAddress
      · obtain rfl := List.inj_on_of_nodup_map hnd hc hbm hcb
        exact ⟨Function.update_self .., Function.update_self ..⟩
      · have hc' := hold c hc hcq' hcb
        exact ⟨by simpa [hcb] using hc'.1, by simpa [hcb] using hc'.2⟩

/-- When the solver returns, every block satisfies its equations. -/
theorem solveForward_solved (hnd : (f.blocks.map BasicBlock.startAddress).Nodup)
    (hrev : EdgesReversed f) {fuel : ℕ} {r : DataflowResult S}
    (h : solveForward fuel f transfer = .ok r) : Solved f transfer r := by
  obtain ⟨st, hst, hq, rfl⟩ := solveLoop_invariant
    (fun st st' hst hs => Consistent.step hnd hrev hst hs) (consistent_init hnd) h
  exact hst.solved hq

end Decompiler.Dataflow
