import Decompiler.Cfg.Partition

/-! # Connecting the blocks

Closed forms of the successor and the predecessor lists. Successors come from the
last instruction of a block and the block after it, predecessors are the reverse
relation, and both lists are strictly increasing.
-/

namespace Decompiler

def Instruction.isCbranch : Instruction → Bool
  | .cbranch _ _ => true
  | _ => false

/-- Control may go past the operation. -/
def Instruction.mayFall (op : Instruction) : Bool := !op.isTerminator || op.isCbranch

def LiftedInstruction.FallsThrough (li : LiftedInstruction) : Prop :=
  ¬ li.hasTerminator ∨ ∃ op ∈ li.ops, op.isCbranch

namespace Cfg

section SortDedup

theorem mem_dedup {a : Address} {l : List Address} : a ∈ dedup l ↔ a ∈ l := by
  fun_induction dedup l with
  | case1 b l ih => simp [ih]
  | case2 b c l _ ih => simp [ih]
  | case3 l _ => rfl

theorem pairwise_lt_dedup {l : List Address} (h : l.Pairwise (· ≤ ·)) :
    (dedup l).Pairwise (· < ·) := by
  fun_induction dedup l with
  | case1 b l ih => exact ih h.of_cons
  | case2 b c l hne ih =>
    obtain ⟨hb, hcl⟩ := List.pairwise_cons.mp h
    refine List.pairwise_cons.mpr ⟨fun x hx => ?_, ih hcl⟩
    have hbc : b < c := UInt64.lt_of_le_of_ne (hb c (by simp)) hne
    rcases List.mem_cons.mp (mem_dedup.mp hx) with rfl | hx
    · exact hbc
    · exact UInt64.lt_of_lt_of_le hbc ((List.pairwise_cons.mp hcl).1 x hx)
  | case3 l hl =>
    cases l with
    | nil => exact List.Pairwise.nil
    | cons a l =>
      cases l with
      | nil => simp
      | cons b l => exact absurd rfl (hl a b l)

instance : Std.Total (α := Address) (· ≤ ·) := ⟨UInt64.le_total⟩

instance : IsTrans Address (· ≤ ·) := ⟨fun _ _ _ => UInt64.le_trans⟩

theorem mem_sortDedup {a : Address} {l : List Address} : a ∈ sortDedup l ↔ a ∈ l := by
  rw [sortDedup, mem_dedup, List.mem_insertionSort]

theorem pairwise_lt_sortDedup (l : List Address) : (sortDedup l).Pairwise (· < ·) :=
  pairwise_lt_dedup (List.pairwise_insertionSort _ l)

end SortDedup

section Successors

variable {known : Finset Address} {next : Option Address} {a : Address}

theorem mem_pushKnown {target : BranchTarget} {succs : List Address} :
    a ∈ pushKnown known target succs ↔
      a ∈ succs ∨ (target.address? = some a ∧ a ∈ known) := by
  cases target with
  | absolute b =>
    simp only [pushKnown, BranchTarget.address?, Option.some.injEq]
    split <;> grind
  | indirect => simp [pushKnown, BranchTarget.address?]

theorem foldl_scanEdge (ops : List Instruction) (s : List Address × Bool) :
    (∀ a, a ∈ (ops.foldl (scanEdge known next) s).1 ↔ a ∈ s.1 ∨
        ((∃ op ∈ ops, op.branchTarget? = some a) ∧ a ∈ known) ∨
        ((∃ op ∈ ops, op.isCbranch) ∧ next = some a)) ∧
      ((ops.foldl (scanEdge known next) s).2 = true ↔
        s.2 = true ∨ ∃ op ∈ ops, op.isTerminator) := by
  induction ops generalizing s with
  | nil => simp
  | cons op ops ih =>
    have hs : (∀ a, a ∈ (scanEdge known next s op).1 ↔ a ∈ s.1 ∨
          (op.branchTarget? = some a ∧ a ∈ known) ∨ (op.isCbranch ∧ next = some a)) ∧
        ((scanEdge known next s op).2 = true ↔ s.2 = true ∨ op.isTerminator) := by
      cases op <;> simp [scanEdge, mem_pushKnown, Instruction.branchTarget?,
        Instruction.isCbranch, Instruction.isTerminator, or_assoc]
    simp only [List.foldl_cons, List.exists_mem_cons_iff]
    refine ⟨fun a => ?_, by rw [(ih _).2, hs.2, or_assoc]⟩
    rw [(ih _).1, hs.1, or_and_right, or_and_right, or_assoc, or_or_or_comm]

/-- The successors are the targets of the last instruction at which a block starts,
and the start of the next block if control may fall through. -/
theorem mem_blockSuccessors {b : BasicBlock} {last : LiftedInstruction}
    (hlast : b.lastInstruction = some last) :
    a ∈ blockSuccessors known next b ↔
      (last.Targets a ∧ a ∈ known) ∨ (last.FallsThrough ∧ next = some a) := by
  obtain ⟨hmem, hterm⟩ := @foldl_scanEdge known next last.ops ([], false)
  simp only [Bool.false_eq_true, false_or] at hterm
  simp only [List.not_mem_nil, false_or] at hmem
  simp only [blockSuccessors, hlast, Option.map_some, Option.getD_some, mem_sortDedup]
  split
  case isTrue ht =>
    have hli : last.hasTerminator := hterm.mp ht
    rw [hmem, LiftedInstruction.FallsThrough]
    simp only [hli, not_true_eq_false, false_or, LiftedInstruction.Targets]
  case isFalse ht =>
    have hli : ¬ last.hasTerminator := fun h => ht (hterm.mpr h)
    rw [List.mem_append, hmem, LiftedInstruction.FallsThrough]
    have hc : ¬ ∃ op ∈ last.ops, op.isCbranch := by
      rintro ⟨op, hop, hcb⟩
      exact hli ⟨op, hop, by cases op <;> simp_all [Instruction.isCbranch, Instruction.isTerminator]⟩
    simp only [hc, false_and, or_false, hli, not_false_eq_true, true_and, Option.mem_toList,
      LiftedInstruction.Targets]

theorem pairwise_lt_blockSuccessors (b : BasicBlock) :
    (blockSuccessors known next b).Pairwise (· < ·) := by
  unfold blockSuccessors
  exact pairwise_lt_sortDedup _

end Successors

variable {bs : List BasicBlock}

def starts (bs : List BasicBlock) : Finset Address := (bs.map BasicBlock.startAddress).toFinset

theorem mem_starts {a : Address} : a ∈ starts bs ↔ ∃ b ∈ bs, b.startAddress = a := by
  simp [starts]

def startAt (bs : List BasicBlock) (i : ℕ) : Option Address :=
  bs[i]?.map BasicBlock.startAddress

theorem startAt_lt {a : Address} {i : ℕ} (h : startAt bs i = some a) : i < bs.length := by
  obtain ⟨b, hb, _⟩ := Option.map_eq_some_iff.mp h
  exact (List.getElem?_eq_some_iff.mp hb).1

theorem allSuccessors_eq_ok (bs : List BasicBlock) :
    ∃ ss, allSuccessors bs = .ok ss ∧ ss.length = bs.length ∧
      ∀ i (h : i < bs.length), ss[i]? = some (blockSuccessors (starts bs) (startAt bs (i + 1)) bs[i]) := by
  refine ⟨bs.zipIdx.map fun p => blockSuccessors (starts bs) (startAt bs (p.2 + 1)) p.1, ?_, by simp,
    fun i h => by simp [h]⟩
  refine Fallible.mapM_eq_ok fun p hp => ?_
  have hi : p.2 < bs.length := by
    have := (List.mem_zipIdx_iff_getElem?.mp hp)
    exact (List.getElem?_eq_some_iff.mp this).1
  have hn : (nextStarts bs)[p.2]? = some (startAt bs (p.2 + 1)) := by
    simp [nextStarts, startAt, hi]
  simp [index, hn, starts]

section Index

theorem startToIndex_concat (bs : List BasicBlock) (b : BasicBlock) :
    startToIndex (bs ++ [b]) = (startToIndex bs).insert b.startAddress bs.length := by
  simp [startToIndex, List.zipIdx_append]

theorem startAt_of_lookup {a : Address} {j : ℕ} (h : (startToIndex bs).lookup a = some j) :
    startAt bs j = some a := by
  induction bs using List.reverseRecOn with
  | nil => simp [startToIndex] at h
  | append_singleton bs b ih =>
    rw [startToIndex_concat] at h
    by_cases ha : a = b.startAddress
    · subst ha
      rw [Finmap.lookup_insert, Option.some.injEq] at h
      subst h
      simp [startAt]
    · rw [Finmap.lookup_insert_of_ne _ ha] at h
      have hstart := ih h
      rwa [startAt, List.getElem?_append_left (startAt_lt hstart)]

theorem lookup_startToIndex (hnd : (bs.map BasicBlock.startAddress).Nodup) {a : Address} {j : ℕ} :
    (startToIndex bs).lookup a = some j ↔ startAt bs j = some a := by
  refine ⟨startAt_of_lookup, fun h => ?_⟩
  induction bs using List.reverseRecOn with
  | nil => simp [startAt] at h
  | append_singleton bs b ih =>
    have hlt := startAt_lt h
    rw [List.length_append, List.length_singleton] at hlt
    rw [List.map_append, List.nodup_append] at hnd
    rw [startToIndex_concat]
    rcases Nat.lt_succ_iff_lt_or_eq.mp hlt with hj | rfl
    · rw [startAt, List.getElem?_append_left hj] at h
      have hne : a ≠ b.startAddress := by
        obtain ⟨c, hc, rfl⟩ := Option.map_eq_some_iff.mp h
        exact hnd.2.2 _ (List.mem_map_of_mem (List.mem_of_getElem? hc)) _ (by simp)
      rw [Finmap.lookup_insert_of_ne _ hne]
      exact ih hnd.1 h
    · obtain rfl : b.startAddress = a := by simpa [startAt] using h
      exact Finmap.lookup_insert _

end Index

section Predecessors

def Has (ls : List (List Address)) (j : ℕ) (a : Address) : Prop := ∃ l, ls[j]? = some l ∧ a ∈ l

theorem pushPred_eq_ok {preds : List (List Address)} {j : ℕ} (hj : j < preds.length)
    (source : Address) :
    ∃ preds', pushPred preds j source = .ok preds' ∧ preds'.length = preds.length ∧
      ∀ k a, Has preds' k a ↔ Has preds k a ∨ (k = j ∧ a = source) := by
  refine ⟨_, by rw [pushPred, index_eq_ok hj]; rfl, by simp, fun k a => ?_⟩
  by_cases hk : k = j
  · subst hk
    simp [Has, hj]
  · simp [Has, hk, List.getElem?_set_ne (Ne.symm hk)]

theorem addPreds_eq_ok (hnd : (bs.map BasicBlock.startAddress).Nodup)
    {preds : List (List Address)} (hlen : preds.length = bs.length) {e : List Address × ℕ}
    {b : BasicBlock} (hb : bs[e.2]? = some b) :
    ∃ preds', addPreds bs preds e = .ok preds' ∧ preds'.length = bs.length ∧
      ∀ k a, Has preds' k a ↔ Has preds k a ∨
        (a = b.startAddress ∧ ∃ s ∈ e.1, startAt bs k = some s) := by
  have hi : index bs e.2 = .ok b := by simp [index, hb]
  rw [addPreds, hi, Fallible.ok_bind]
  refine Fallible.foldlM_invariant (fun p preds' => preds'.length = bs.length ∧
    ∀ k a, Has preds' k a ↔ Has preds k a ∨
      (a = b.startAddress ∧ ∃ s ∈ p, startAt bs k = some s)) ⟨hlen, by simp⟩ ?_
  rintro p s preds' - ⟨hlen', hp⟩
  cases hs : (startToIndex bs).lookup s with
  | none =>
    refine ⟨preds', rfl, hlen', fun k a => ?_⟩
    have hk : startAt bs k ≠ some s := fun h => by
      simp [(lookup_startToIndex hnd).mpr h] at hs
    simp [hp, or_and_right, exists_or, hk]
  | some j =>
    have hj := (lookup_startToIndex hnd).mp hs
    obtain ⟨preds'', h, hlen'', hpush⟩ :=
      pushPred_eq_ok (hlen' ▸ startAt_lt hj) b.startAddress
    refine ⟨preds'', h, hlen''.trans hlen', fun k a => ?_⟩
    have hk : startAt bs k = some s ↔ k = j := by
      rw [← lookup_startToIndex hnd, hs, Option.some.injEq, eq_comm]
    simp only [hpush, hp, List.mem_append, List.mem_singleton, or_and_right, exists_or, or_assoc,
      exists_eq_left, hk]
    grind

theorem allPredecessors_eq_ok (hnd : (bs.map BasicBlock.startAddress).Nodup)
    {ss : List (List Address)} (hlen : ss.length = bs.length) :
    ∃ ps, allPredecessors bs ss = .ok ps ∧ ps.length = bs.length ∧
      ∀ k a, Has ps k a ↔ ∃ i s, startAt bs i = some a ∧ Has ss i s ∧ startAt bs k = some s := by
  have key : ∃ ps, allPredecessors bs ss = .ok ps ∧ ps.length = bs.length ∧
      ∀ k a, Has ps k a ↔ ∃ e ∈ ss.zipIdx, startAt bs e.2 = some a ∧
        ∃ s ∈ e.1, startAt bs k = some s := by
    unfold allPredecessors
    refine Fallible.foldlM_invariant
      (fun (p : List (List Address × ℕ)) preds => preds.length = bs.length ∧
        ∀ k a, Has preds k a ↔ ∃ e ∈ p, startAt bs e.2 = some a ∧
          ∃ s ∈ e.1, startAt bs k = some s) ?_ ?_
    · refine ⟨List.length_replicate, fun k a => ?_⟩
      simp [Has, List.getElem?_replicate]
    · intro p e preds he ⟨hlen', hp⟩
      have hlt : e.2 < bs.length := by
        rw [← hlen]
        exact (List.getElem?_eq_some_iff.mp (List.mem_zipIdx_iff_getElem?.mp he)).1
      obtain ⟨preds', h, hlen'', hadd⟩ :=
        addPreds_eq_ok hnd hlen' (List.getElem?_eq_getElem hlt)
      refine ⟨preds', h, hlen'', fun k a => ?_⟩
      have hstart : startAt bs e.2 = some a ↔ a = bs[e.2].startAddress := by
        simp [startAt, hlt, eq_comm]
      simp only [hadd, hp, List.mem_append, List.mem_singleton, or_and_right, exists_or,
        exists_eq_left, hstart]
  obtain ⟨ps, h, hlen', hps⟩ := key
  refine ⟨ps, h, hlen', fun k a => (hps k a).trans ?_⟩
  constructor
  · rintro ⟨e, he, ha, s, hs, hk⟩
    exact ⟨e.2, s, ha, ⟨e.1, List.mem_zipIdx_iff_getElem?.mp he, hs⟩, hk⟩
  · rintro ⟨i, s, ha, ⟨l, hl, hs⟩, hk⟩
    exact ⟨(l, i), List.mem_zipIdx_iff_getElem?.mpr hl, ha, s, hs, hk⟩

end Predecessors

end Cfg

end Decompiler
