import Decompiler.ConstProp.Shape

/-! # Running the pass twice

The rewritten operations agree with the original ones in the states that they were rewritten
in, and from states above these they lead to states that are not above the original ones.
The two systems of equations therefore have the same greatest solution, and a second run
finds nothing to rewrite.
-/

namespace Decompiler.ConstProp

open Cfg Dataflow

section Operations

variable {s t : ConstState} {op : Instruction}

theorem get_substitute (v : Varnode) (s : ConstState) :
    s.get (substitute v s).location = s.get v.location := by
  rcases substitute_cases v s with h | ⟨x, hx, h⟩
  · rw [h]
  · rw [h, hx]
    exact ConstState.get_of_constant s rfl

theorem get_substitute_le (h : s ≤ t) (v : Varnode) :
    t.get (substitute v s).location ≤ t.get v.location := by
  rcases substitute_cases v s with hv | ⟨x, hx, hv⟩
  · rw [hv]
  · have hliteral : t.get (Varnode.constant x v.size).location = .const x :=
      ConstState.get_of_constant t rfl
    rw [hv, hliteral, ← hx]
    exact ConstState.get_mono h v.location

theorem substitute_substitute (v : Varnode) (s : ConstState) :
    substitute (substitute v s) s = substitute v s := by
  rcases substitute_cases v s with h | ⟨x, -, h⟩
  · rw [h, h]
  · rw [h]
    rcases substitute_cases (Varnode.constant x v.size) s with h' | ⟨y, hy, h'⟩
    · exact h'
    · have hliteral : s.get (Varnode.constant x v.size).location = .const x :=
        ConstState.get_of_constant s rfl
      obtain rfl := ConstValue.const.inj (hliteral.symm.trans hy)
      exact h'

theorem foldl_merge_substitute_le (h : s ≤ t) (srcs : List Varnode) {a b : ConstValue}
    (hab : a ≤ b) :
    (srcs.map (substitute · s)).foldl (fun acc src => acc.merge (t.get src.location)) a ≤
      srcs.foldl (fun acc src => acc.merge (t.get src.location)) b := by
  induction srcs generalizing a b with
  | nil => exact hab
  | cons v srcs ih => exact ih (ConstValue.merge_le_merge hab (get_substitute_le h v))

theorem foldl_merge_substitute (s : ConstState) (srcs : List Varnode) (a : ConstValue) :
    (srcs.map (substitute · s)).foldl (fun acc src => acc.merge (s.get src.location)) a =
      srcs.foldl (fun acc src => acc.merge (s.get src.location)) a := by
  rw [List.foldl_map]
  simp only [get_substitute]

section Binop

variable {bin : Varnode → Varnode → Varnode → Instruction} {dest lhs rhs : Varnode}
  {f : UInt64 → UInt64 → UInt64}

theorem transfer_foldBinop_le
    (hbin : ∀ a b, a.size = lhs.size → ∀ t, transferInstruction (bin dest a b) t =
      transferBinop dest a b f t) (h : s ≤ t) :
    transferInstruction (foldBinop bin dest lhs rhs s f) t ≤ transferBinop dest lhs rhs f t := by
  rcases foldBinop_cases bin dest lhs rhs s f with hfold | ⟨a, b, ha, hb, hfold⟩
  · rw [hfold, hbin _ _ (size_substitute lhs s)]
    apply ConstState.set_mono (le_refl t)
    exact evalBinop_mono f (get_substitute_le h lhs) (get_substitute_le h rhs)
  · have hliteral : t.get (Varnode.constant (f a b) dest.size).location =
        evalBinop (s.get lhs.location) (s.get rhs.location) f := by
      rw [ha, hb]
      exact ConstState.get_of_constant t rfl
    rw [hfold, transferInstruction, hliteral]
    apply ConstState.set_mono (le_refl t)
    exact evalBinop_mono f (ConstState.get_mono h _) (ConstState.get_mono h _)

theorem transfer_foldBinop
    (hbin : ∀ a b, a.size = lhs.size → ∀ t, transferInstruction (bin dest a b) t =
      transferBinop dest a b f t) (s : ConstState) :
    transferInstruction (foldBinop bin dest lhs rhs s f) s = transferBinop dest lhs rhs f s := by
  rcases foldBinop_cases bin dest lhs rhs s f with hfold | ⟨a, b, ha, hb, hfold⟩
  · rw [hfold, hbin _ _ (size_substitute lhs s), transferBinop, get_substitute, get_substitute]
    rfl
  · have hliteral : s.get (Varnode.constant (f a b) dest.size).location =
        evalBinop (s.get lhs.location) (s.get rhs.location) f := by
      rw [ha, hb]
      exact ConstState.get_of_constant s rfl
    rw [hfold, transferInstruction, hliteral]
    rfl

theorem substituteAndFold_foldBinop
    (hbin : ∀ a b, a.size = lhs.size → ∀ s, substituteAndFold (bin dest a b) s =
      foldBinop bin dest a b s f) (s : ConstState) :
    substituteAndFold (foldBinop bin dest lhs rhs s f) s = foldBinop bin dest lhs rhs s f := by
  rcases foldBinop_cases bin dest lhs rhs s f with hfold | ⟨a, b, -, -, hfold⟩
  · have hsame : foldOrKeep dest (substitute lhs s) (substitute rhs s) s f =
        foldOrKeep dest lhs rhs s f := by
      rw [foldOrKeep, foldOrKeep, get_substitute, get_substitute]
    rw [hfold, hbin _ _ (size_substitute lhs s), foldBinop, hsame, substitute_substitute,
      substitute_substitute]
    exact hfold
  · rw [hfold]
    rfl

end Binop

theorem comparisons_congr {v w : Varnode} (h : v.size = w.size) :
    equalWord v = equalWord w ∧ notEqualWord v = notEqualWord w ∧ slessWord v = slessWord w ∧
      slessEqualWord v = slessEqualWord w := by
  refine ⟨?_, ?_, ?_, ?_⟩ <;> ext a b
  · rw [equalWord, equalWord, h]
  · rw [notEqualWord, notEqualWord, h]
  · rw [slessWord, slessWord, h]
  · rw [slessEqualWord, slessEqualWord, h]

/-- In a higher state than the one that it was rewritten in, an operation does not lead above
the original one. -/
theorem transfer_substituteAndFold_le (h : s ≤ t) (op : Instruction) :
    transferInstruction (substituteAndFold op s) t ≤ transferInstruction op t := by
  cases op with
  | copy dest src => exact ConstState.set_mono (le_refl t) _ (get_substitute_le h src)
  | phi dest srcs =>
    exact ConstState.set_mono (le_refl t) _ (foldl_merge_substitute_le h srcs (le_refl _))
  | intAdd dest lhs rhs => exact transfer_foldBinop_le (fun _ _ _ _ => rfl) h
  | intSub dest lhs rhs => exact transfer_foldBinop_le (fun _ _ _ _ => rfl) h
  | intEqual dest lhs rhs =>
    apply transfer_foldBinop_le _ h
    intro a b ha t
    rw [transferInstruction, (comparisons_congr ha).1]
  | intNotEqual dest lhs rhs =>
    apply transfer_foldBinop_le _ h
    intro a b ha t
    rw [transferInstruction, (comparisons_congr ha).2.1]
  | intSless dest lhs rhs =>
    apply transfer_foldBinop_le _ h
    intro a b ha t
    rw [transferInstruction, (comparisons_congr ha).2.2.1]
  | intSlessEqual dest lhs rhs =>
    apply transfer_foldBinop_le _ h
    intro a b ha t
    rw [transferInstruction, (comparisons_congr ha).2.2.2]
  | _ => exact le_refl _

theorem transfer_substituteAndFold (op : Instruction) (s : ConstState) :
    transferInstruction (substituteAndFold op s) s = transferInstruction op s := by
  cases op with
  | copy dest src =>
    rw [substituteAndFold, transferInstruction, get_substitute]
    rfl
  | phi dest srcs =>
    rw [substituteAndFold, transferInstruction, foldl_merge_substitute]
    rfl
  | intAdd dest lhs rhs => exact transfer_foldBinop (fun _ _ _ _ => rfl) s
  | intSub dest lhs rhs => exact transfer_foldBinop (fun _ _ _ _ => rfl) s
  | intEqual dest lhs rhs =>
    apply transfer_foldBinop
    intro a b ha t
    rw [transferInstruction, (comparisons_congr ha).1]
  | intNotEqual dest lhs rhs =>
    apply transfer_foldBinop
    intro a b ha t
    rw [transferInstruction, (comparisons_congr ha).2.1]
  | intSless dest lhs rhs =>
    apply transfer_foldBinop
    intro a b ha t
    rw [transferInstruction, (comparisons_congr ha).2.2.1]
  | intSlessEqual dest lhs rhs =>
    apply transfer_foldBinop
    intro a b ha t
    rw [transferInstruction, (comparisons_congr ha).2.2.2]
  | _ => rfl

theorem substituteAndFold_twice (op : Instruction) (s : ConstState) :
    substituteAndFold (substituteAndFold op s) s = substituteAndFold op s := by
  cases op with
  | copy dest src => exact congrArg (Instruction.copy dest) (substitute_substitute src s)
  | load dest addr => exact congrArg (Instruction.load dest) (substitute_substitute addr s)
  | store addr src =>
    exact congrArg₂ Instruction.store (substitute_substitute addr s) (substitute_substitute src s)
  | cbranch condition target =>
    exact congrArg (Instruction.cbranch · target) (substitute_substitute condition s)
  | phi dest srcs =>
    apply congrArg (Instruction.phi dest)
    rw [List.map_map]
    apply List.map_congr_left
    exact fun v _ => substitute_substitute v s
  | intAdd dest lhs rhs => exact substituteAndFold_foldBinop (fun _ _ _ _ => rfl) s
  | intSub dest lhs rhs => exact substituteAndFold_foldBinop (fun _ _ _ _ => rfl) s
  | intEqual dest lhs rhs =>
    apply substituteAndFold_foldBinop
    intro a b ha s
    rw [substituteAndFold, (comparisons_congr ha).1]
  | intNotEqual dest lhs rhs =>
    apply substituteAndFold_foldBinop
    intro a b ha s
    rw [substituteAndFold, (comparisons_congr ha).2.1]
  | intSless dest lhs rhs =>
    apply substituteAndFold_foldBinop
    intro a b ha s
    rw [substituteAndFold, (comparisons_congr ha).2.2.1]
  | intSlessEqual dest lhs rhs =>
    apply substituteAndFold_foldBinop
    intro a b ha s
    rw [substituteAndFold, (comparisons_congr ha).2.2.2]
  | _ => rfl

end Operations

section Blocks

variable {s t : ConstState} {f : Function} {r : DataflowResult ConstState} {b : BasicBlock}

theorem take_rewriteOps (ops : List Instruction) (s : ConstState) (i : ℕ) :
    (rewriteOps ops s).take i = rewriteOps (ops.take i) s := by
  induction ops generalizing s i with
  | nil => rw [List.take_nil, rewriteOps, List.take_nil]
  | cons op ops ih =>
    cases i with
    | zero => rfl
    | succ i => rw [rewriteOps, List.take_succ_cons, ih, List.take_succ_cons, rewriteOps]

theorem foldl_rewriteOps (ops : List Instruction) (s : ConstState) :
    (rewriteOps ops s).foldl (fun s op => transferInstruction op s) s =
      ops.foldl (fun s op => transferInstruction op s) s := by
  induction ops generalizing s with
  | nil => rfl
  | cons op ops ih =>
    rw [rewriteOps, List.foldl_cons, List.foldl_cons, transfer_substituteAndFold, ih]

theorem foldl_transfer_mono (ops : List Instruction) :
    Monotone (ops.foldl fun s op => transferInstruction op s) := by
  induction ops with
  | nil => exact fun s t h => h
  | cons op ops ih => exact fun s t h => ih (transferInstruction_mono op h)

theorem foldl_rewriteOps_le (ops : List Instruction) (h : s ≤ t) :
    (rewriteOps ops s).foldl (fun s op => transferInstruction op s) t ≤
      ops.foldl (fun s op => transferInstruction op s) t := by
  induction ops generalizing s t with
  | nil => exact le_refl t
  | cons op ops ih =>
    rw [rewriteOps, List.foldl_cons, List.foldl_cons]
    have hafter : transferInstruction op s ≤ transferInstruction (substituteAndFold op s) t := by
      rw [← transfer_substituteAndFold op s]
      exact transferInstruction_mono _ h
    apply (ih hafter).trans
    exact foldl_transfer_mono ops (transfer_substituteAndFold_le h op)

theorem rewriteOps_twice (ops : List Instruction) (s : ConstState) :
    rewriteOps (rewriteOps ops s) s = rewriteOps ops s := by
  induction ops generalizing s with
  | nil => rfl
  | cons op ops ih =>
    rw [rewriteOps, rewriteOps, substituteAndFold_twice, transfer_substituteAndFold, ih]

theorem rewriteInstructions_twice (lis : List LiftedInstruction) (s : ConstState) :
    rewriteInstructions (rewriteInstructions lis s) s = rewriteInstructions lis s := by
  induction lis generalizing s with
  | nil => rfl
  | cons li lis ih =>
    rw [rewriteInstructions, rewriteInstructions]
    dsimp only
    rw [rewriteOps_twice, foldl_rewriteOps, ih]

def inState (r : DataflowResult ConstState) (b : BasicBlock) : ConstState :=
  (r.blockIn b.startAddress).getD Lattice.top

theorem ops_rewriteBlock (r : DataflowResult ConstState) (b : BasicBlock) :
    (rewriteBlock r b).ops = rewriteOps b.ops (inState r b) :=
  flatMap_rewriteInstructions _ _

theorem after_rewriteBlock (r : DataflowResult ConstState) (b : BasicBlock) (i : ℕ) :
    after (rewriteBlock r b).ops (inState r b) i = after b.ops (inState r b) i := by
  rw [after, ops_rewriteBlock, take_rewriteOps, foldl_rewriteOps, after]

end Blocks

section Equations

variable {f : Function} {r : DataflowResult ConstState}

theorem inState_eq (hr : Solved f constantPropagation r) {b : BasicBlock} (hb : b ∈ f.blocks) :
    inState r b = inOf b fun p => some (outs r.blockOut p) := by
  rw [inState, (hr b hb).1, inOf_outs]
  rfl

theorem nodup_starts_rewrite (hnd : (f.blocks.map BasicBlock.startAddress).Nodup)
    (r : DataflowResult ConstState) :
    ((rewrite f r).blocks.map BasicBlock.startAddress).Nodup := by
  rw [rewrite_blocks, List.map_map]
  exact hnd

theorem edgesReversed_rewrite (hrev : EdgesReversed f) (r : DataflowResult ConstState) :
    EdgesReversed (rewrite f r) := by
  rw [EdgesReversed, rewrite_blocks]
  intro b' hb' a
  obtain ⟨b, hb, rfl⟩ := List.mem_map.mp hb'
  apply (hrev b hb a).trans
  constructor
  · rintro ⟨c, hc, hca, hedge⟩
    exact ⟨rewriteBlock r c, List.mem_map_of_mem hc, hca, hedge⟩
  · rintro ⟨c', hc', hca, hedge⟩
    obtain ⟨c, hc, rfl⟩ := List.mem_map.mp hc'
    exact ⟨c, hc, hca, hedge⟩

theorem blockByAddr_rewrite (hnd : (f.blocks.map BasicBlock.startAddress).Nodup)
    (r : DataflowResult ConstState) (a : Address) :
    blockByAddr (rewrite f r) a = (blockByAddr f a).map (rewriteBlock r) := by
  have hnd' := nodup_starts_rewrite hnd r
  cases hb : blockByAddr f a with
  | some b =>
    obtain ⟨hmem, rfl⟩ := (blockByAddr_eq_some hnd).mp hb
    exact (blockByAddr_eq_some hnd').mpr ⟨List.mem_map_of_mem hmem, rfl⟩
  | none =>
    apply (blockByAddr_eq_none hnd').mpr
    rintro b' hb'
    obtain ⟨b, hmem, rfl⟩ := List.mem_map.mp hb'
    exact (blockByAddr_eq_none hnd).mp hb b hmem

theorem equations_rewrite (hnd : (f.blocks.map BasicBlock.startAddress).Nodup)
    (r : DataflowResult ConstState) (a : Address) :
    (∀ x, equations (rewrite f r) constantPropagation a x = equations f constantPropagation a x) ∨
      ∃ b ∈ f.blocks, ∀ x, equations f constantPropagation a x =
          b.ops.foldl (fun s op => transferInstruction op s) (inOf b fun p => some (x p)) ∧
        equations (rewrite f r) constantPropagation a x =
          (rewriteOps b.ops (inState r b)).foldl (fun s op => transferInstruction op s)
            (inOf b fun p => some (x p)) := by
  unfold equations
  rw [blockByAddr_rewrite hnd]
  cases hb : blockByAddr f a with
  | none => exact Or.inl fun x => rfl
  | some b =>
    refine Or.inr ⟨b, (mem_of_blockByAddr hb).1, fun x => ⟨?_, ?_⟩⟩
    · exact transferBlock_eq_foldl _ _ _
    · dsimp only [Option.map_some]
      rw [outOf, transferBlock_eq_foldl, ops_rewriteBlock]
      rfl

theorem equations_rewrite_outs (hnd : (f.blocks.map BasicBlock.startAddress).Nodup)
    (hr : Solved f constantPropagation r) (a : Address) :
    equations (rewrite f r) constantPropagation a (outs r.blockOut) =
      equations f constantPropagation a (outs r.blockOut) := by
  rcases equations_rewrite hnd r a with hsame | ⟨b, hb, hops⟩
  · exact hsame _
  · rw [(hops _).1, (hops _).2, ← inState_eq hr hb, foldl_rewriteOps]

/-- Above the solution the rewritten system lies below the original one. -/
theorem equations_rewrite_le (hnd : (f.blocks.map BasicBlock.startAddress).Nodup)
    (hr : Solved f constantPropagation r) {x : Address → ConstState}
    (hx : outs r.blockOut ≤ x) (a : Address) :
    equations (rewrite f r) constantPropagation a x ≤ equations f constantPropagation a x := by
  rcases equations_rewrite hnd r a with hsame | ⟨b, hb, hops⟩
  · exact (hsame x).le
  · rw [(hops x).1, (hops x).2]
    apply foldl_rewriteOps_le
    rw [inState_eq hr hb]
    exact inOf_mono (fun _ _ _ _ => ConstState.merge_mono) b hx

theorem outs_greatest (hnd : (f.blocks.map BasicBlock.startAddress).Nodup)
    (hrev : EdgesReversed f) (hr : solveForward (solveFuel f) f constantPropagation = .ok r) :
    Descent.Greatest (equations f constantPropagation) (outs r.blockOut) := by
  apply solveForward_outs_greatest _ ConstState.le_top hnd hrev hr
  exact equations_mono (fun _ _ _ _ => ConstState.merge_mono) transferInstruction_mono

/-- The rewritten function has the solution that it was rewritten by. -/
theorem outs_rewrite (hnd : (f.blocks.map BasicBlock.startAddress).Nodup)
    (hrev : EdgesReversed f) (hr : solveForward (solveFuel f) f constantPropagation = .ok r)
    {r' : DataflowResult ConstState}
    (hr' : solveForward (solveFuel (rewrite f r)) (rewrite f r) constantPropagation = .ok r') :
    outs r.blockOut = outs r'.blockOut := by
  have hsolved := solveForward_solved hnd hrev hr
  have hgreatest := outs_greatest hnd hrev hr
  apply hgreatest.eq (outs_greatest (nodup_starts_rewrite hnd r) (edgesReversed_rewrite hrev r) hr')
  · intro a
    rw [equations_rewrite_outs hnd hsolved]
    exact hgreatest.le_self a
  · exact fun x hx => equations_rewrite_le hnd hsolved hx

theorem inState_rewriteBlock (hnd : (f.blocks.map BasicBlock.startAddress).Nodup)
    (hrev : EdgesReversed f) (hr : solveForward (solveFuel f) f constantPropagation = .ok r)
    {r' : DataflowResult ConstState}
    (hr' : solveForward (solveFuel (rewrite f r)) (rewrite f r) constantPropagation = .ok r')
    {b : BasicBlock} (hb : b ∈ f.blocks) : inState r' (rewriteBlock r b) = inState r b := by
  have hmem : rewriteBlock r b ∈ (rewrite f r).blocks := List.mem_map_of_mem hb
  have hsolved' := solveForward_solved (nodup_starts_rewrite hnd r) (edgesReversed_rewrite hrev r) hr'
  rw [inState_eq hsolved' hmem, ← outs_rewrite hnd hrev hr hr',
    inState_eq (solveForward_solved hnd hrev hr) hb]
  rfl

end Equations

/-- Rewriting a second time, with the same IN states, changes nothing. -/
theorem rewrite_rewrite_blocks {f : Function} {r r' : DataflowResult ConstState}
    (h : ∀ b ∈ f.blocks, inState r' (rewriteBlock r b) = inState r b) :
    (rewrite (rewrite f r) r').blocks = (rewrite f r).blocks := by
  rw [rewrite_blocks, rewrite_blocks, List.map_map]
  apply List.map_congr_left
  intro b hb
  have hlis : (rewriteBlock r' (rewriteBlock r b)).instructions =
      rewriteInstructions (rewriteInstructions b.instructions (inState r b))
        (inState r' (rewriteBlock r b)) := rfl
  rw [h b hb, rewriteInstructions_twice] at hlis
  exact congrArg (fun lis => { b with instructions := lis }) hlis

/-- A second run of the pass changes nothing. The equations of the rewritten function have the
same greatest solution, which gives every location the same value at every point. -/
theorem run_idempotent {f g : Function} (hnd : ((stream f).map LiftedInstruction.address).Nodup)
    (hg : build f = .ok g) : ∃ g' r r', run g = .ok g' ∧ run g' = .ok g' ∧
      solveForward (solveFuel g) g constantPropagation = .ok r ∧
      solveForward (solveFuel g') g' constantPropagation = .ok r' ∧
      Descent.Greatest (equations g constantPropagation) (outs r.blockOut) ∧
      Descent.Greatest (equations g' constantPropagation) (outs r'.blockOut) ∧
      ∀ (k : ℕ) (b b' : BasicBlock), g.blocks[k]? = some b → g'.blocks[k]? = some b' → ∀ i,
        after b'.ops (inState r' b') i = after b.ops (inState r b) i := by
  obtain ⟨g₀, hbuild, hstream, hcfg⟩ := build_isCfg hnd
  obtain rfl := Except.ok.inj (hbuild.symm.trans hg)
  rw [← hstream] at hnd
  have hstarts := hcfg.nodup_starts hnd
  have hrev : EdgesReversed g₀ := hcfg.connected.mem_predecessors
  obtain ⟨r, hr⟩ := solveForward_eq_ok g₀
  obtain ⟨r', hr'⟩ := solveForward_eq_ok (rewrite g₀ r)
  have hstarts' := nodup_starts_rewrite hstarts r
  have hrev' := edgesReversed_rewrite hrev r
  have hstate : ∀ b ∈ g₀.blocks, inState r' (rewriteBlock r b) = inState r b :=
    fun _ hb => inState_rewriteBlock hstarts hrev hr hr' hb
  refine ⟨rewrite g₀ r, r, r', ?_, ?_, hr, hr', outs_greatest hstarts hrev hr,
    outs_greatest hstarts' hrev' hr', ?_⟩
  · rw [run, hr]
    rfl
  · rw [run, hr']
    have hsecond := rewrite_rewrite_blocks hstate
    exact congrArg (fun bs => Except.ok { rewrite g₀ r with blocks := bs }) hsecond
  · intro k b b' hb hb' i
    rw [rewrite_blocks, List.getElem?_map, hb] at hb'
    obtain rfl := Option.some.inj hb'
    rw [hstate b (List.mem_of_getElem? hb), after_rewriteBlock]

theorem run_idempotent_constantTest :
    ∃ g g', build constantTest = .ok g ∧ run g = .ok g' ∧ run g' = .ok g' := by
  have hnd : ((stream constantTest).map LiftedInstruction.address).Nodup := by decide
  obtain ⟨g, hg, -⟩ := build_isCfg hnd
  obtain ⟨g', r, r', hfirst, hsecond, -⟩ := run_idempotent hnd hg
  exact ⟨g, g', hg, hfirst, hsecond⟩

end Decompiler.ConstProp
