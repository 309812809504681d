import Mathlib.Data.DFinsupp.WellFounded
import Mathlib.Algebra.Order.BigOperators.Group.List
import Mathlib.Algebra.Order.Group.Nat
import Decompiler.Dataflow.Worklist
import Decompiler.Library.Descent

/-! # Termination of the solver

Seen from the OUT states alone, an iteration either does nothing or recomputes one
equation. With monotone equations the OUT states only descend, so the solver stops
when descending chains are finite, and within a known number of iterations when
states have a rank.
-/

namespace Decompiler.Dataflow

instance : Finite Address :=
  Finite.of_injective UInt64.toFin fun _ _ h => UInt64.toFin_inj.mp h

variable {S : Type*} [Lattice S] {f : Function} {transfer : TransferFunction S}
  {st st' : SolverState S}

def outs (blockOut : Address → Option S) (a : Address) : S := (blockOut a).getD Lattice.top

/-- The equations of the blocks; an address without a block keeps `top`. -/
def equations (f : Function) (transfer : TransferFunction S) (a : Address)
    (x : Address → S) : S :=
  match blockByAddr f a with
  | some b => outOf transfer b fun p => some (x p)
  | none => Lattice.top

theorem inOf_outs (b : BasicBlock) (blockOut : Address → Option S) :
    inOf b (fun p => some (outs blockOut p)) = inOf b blockOut := by
  simp [inOf, mergePredecessorStates, outs]

theorem equations_outs {a : Address} {b : BasicBlock} (hb : blockByAddr f a = some b)
    (blockOut : Address → Option S) :
    equations f transfer a (outs blockOut) = outOf transfer b blockOut := by
  simp only [equations, hb, outOf]
  exact congrArg (transferBlock b · transfer) (inOf_outs b blockOut)

theorem outs_update (blockOut : Address → Option S) (a : Address) (s : S) :
    outs (Function.update blockOut a (some s)) = Function.update (outs blockOut) a s := by
  funext p
  by_cases hp : p = a
  · subst hp
    simp [outs]
  · simp [outs, hp]

theorem outs_init : outs (solveInit f : SolverState S).blockOut = fun _ => Lattice.top := by
  funext a
  simp only [outs, solveInit]
  split <;> rfl

omit [Lattice S] in
theorem transferBlock_mono [PartialOrder S]
    (htransfer : ∀ op, Monotone (transfer.transferInstruction op)) (b : BasicBlock) :
    Monotone (transferBlock b · transfer) := by
  intro s t hst
  simp only [transferBlock_eq_foldl]
  induction b.ops generalizing s t with
  | nil => exact hst
  | cons op ops ih => exact ih (htransfer op hst)

theorem inOf_mono [PartialOrder S]
    (hmerge : ∀ s s' t t' : S, s ≤ s' → t ≤ t' → Lattice.merge s t ≤ Lattice.merge s' t')
    (b : BasicBlock) {x y : Address → S} (hxy : x ≤ y) :
    inOf b (fun p => some (x p)) ≤ inOf b (fun p => some (y p)) := by
  cases hp : b.predecessors with
  | nil => rw [inOf_eq_top hp, inOf_eq_top hp]
  | cons p l =>
    rw [inOf_eq_foldl hp, inOf_eq_foldl hp]
    have hfold : ∀ (l : List Address) (s t : S), s ≤ t →
        l.foldl (fun acc q => Lattice.merge acc (x q)) s ≤
          l.foldl (fun acc q => Lattice.merge acc (y q)) t := by
      intro l
      induction l with
      | nil => exact fun s t h => h
      | cons q l ih => exact fun s t h => ih _ _ (hmerge _ _ _ _ h (hxy q))
    exact hfold l _ _ (hxy p)

theorem equations_mono [PartialOrder S]
    (hmerge : ∀ s s' t t' : S, s ≤ s' → t ≤ t' → Lattice.merge s t ≤ Lattice.merge s' t')
    (htransfer : ∀ op, Monotone (transfer.transferInstruction op)) (a : Address) :
    Monotone (equations f transfer a) := by
  intro x y hxy
  unfold equations
  split
  case h_1 b _ => exact transferBlock_mono htransfer b (inOf_mono hmerge b hxy)
  case h_2 => exact le_refl _

variable [DecidableEq S]

def HasOuts (f : Function) (st : SolverState S) : Prop :=
  ∀ a, (st.blockOut a).isSome ↔ ∃ b ∈ f.blocks, b.startAddress = a

omit [DecidableEq S] in
theorem hasOuts_init : HasOuts f (solveInit f : SolverState S) := by
  intro a
  simp [solveInit, Option.isSome_ite]

theorem outs_step (h : HasOuts f st) (hs : solveStep f transfer st = some st') :
    HasOuts f st' ∧
      ((outs st'.blockOut = outs st.blockOut ∧ st'.queue.length < st.queue.length) ∨
        ∃ b ∈ f.blocks, blockByAddr f b.startAddress = some b ∧
          equations f transfer b.startAddress (outs st.blockOut) ≠
            outs st.blockOut b.startAddress ∧
          outs st'.blockOut =
            Descent.recompute (equations f transfer) (outs st.blockOut) b.startAddress ∧
          st'.queue.length < st.queue.length + b.successors.length) := by
  obtain ⟨addr, queue, hq, hcase⟩ := solveStep_cases hs
  rcases hcase with ⟨-, rfl⟩ | ⟨b, hb, ⟨-, rfl⟩ | ⟨hout, rfl⟩⟩
  · exact ⟨h, Or.inl ⟨rfl, by simp [hq]⟩⟩
  · exact ⟨h, Or.inl ⟨rfl, by simp [hq]⟩⟩
  · obtain ⟨hbm, rfl⟩ := mem_of_blockByAddr hb
    refine ⟨fun a => ?_, Or.inr ⟨b, hbm, hb, ?_, ?_, ?_⟩⟩
    · by_cases ha : a = b.startAddress
      · subst ha
        simpa using ⟨b, hbm, rfl⟩
      · simpa [ha] using h a
    · rw [equations_outs hb]
      obtain ⟨old, hold⟩ := Option.isSome_iff_exists.mp ((h _).mpr ⟨b, hbm, rfl⟩)
      intro he
      exact hout (by rw [he, outs, hold]; rfl)
    · rw [Descent.recompute, equations_outs hb, outs_update]
    · have hlen := length_foldl_enqueue b.successors (queue, st.queued.erase b.startAddress)
      simp only [hq, List.length_cons] at hlen ⊢
      omega

/-- A property of the OUT states that the equations keep holds of every result. -/
theorem solveForward_outs {K : Address → S → Prop} (htop : ∀ a, K a Lattice.top)
    (heq : ∀ b ∈ f.blocks, ∀ x : Address → S, (∀ a, K a (x a)) →
      K b.startAddress (outOf transfer b fun p => some (x p)))
    {fuel : ℕ} {r : DataflowResult S} (h : solveForward fuel f transfer = .ok r) :
    ∀ a, K a (outs r.blockOut a) := by
  have hstep : ∀ st st', (HasOuts f st ∧ ∀ a, K a (outs st.blockOut a)) →
      solveStep f transfer st = some st' → HasOuts f st' ∧ ∀ a, K a (outs st'.blockOut a) := by
    rintro st st' ⟨hc, hK⟩ hs
    obtain ⟨hc', hcase⟩ := outs_step hc hs
    refine ⟨hc', fun a => ?_⟩
    rcases hcase with ⟨ho, -⟩ | ⟨b, hb, hat, -, ho, -⟩
    · rw [ho]
      exact hK a
    · rw [ho, Descent.recompute]
      by_cases ha : a = b.startAddress
      · subst ha
        simp only [Function.update_self, equations, hat]
        exact heq b hb _ hK
      · simpa [ha] using hK a
  obtain ⟨st, ⟨-, hst⟩, -, rfl⟩ := solveLoop_invariant hstep
    ⟨hasOuts_init, fun a => by rw [outs_init]; exact htop a⟩ h
  exact hst

section Order

variable [PartialOrder S]

/-- A state with OUT states above their equations. -/
structure Descending (f : Function) (transfer : TransferFunction S) (st : SolverState S) :
    Prop where
  hasOuts : HasOuts f st
  postFixed : Descent.PostFixed (equations f transfer) (outs st.blockOut)

omit [DecidableEq S] in
theorem descending_init (htop : ∀ s : S, s ≤ Lattice.top) :
    Descending f transfer (solveInit f : SolverState S) where
  hasOuts := hasOuts_init
  postFixed a := by
    rw [outs_init]
    exact htop _

section Mono

variable (hmono : ∀ a, Monotone (equations f transfer a))

include hmono

theorem Descending.step (h : Descending f transfer st) (hs : solveStep f transfer st = some st') :
    Descending f transfer st' := by
  obtain ⟨hc, hcase⟩ := outs_step h.hasOuts hs
  refine ⟨hc, ?_⟩
  rcases hcase with ⟨ho, -⟩ | ⟨b, -, -, -, ho, -⟩
  · rw [ho]
    exact h.postFixed
  · rw [ho]
    exact h.postFixed.recompute hmono _

theorem Descending.exists_solveLoop [WellFoundedLT S] (h : Descending f transfer st) :
    ∃ fuel r, solveLoop f transfer fuel st = .ok r := by
  have hwf : WellFounded (Prod.Lex (α := Address → S) (β := ℕ) (· < ·) (· < ·)) :=
    wellFounded_lt.prod_lex wellFounded_lt
  generalize hm : (outs st.blockOut, st.queue.length) = m
  induction m using hwf.induction generalizing st with
  | h m ih =>
    subst hm
    cases hs : solveStep f transfer st with
    | none => exact ⟨1, st.toDataflowResult, by rw [solveLoop, hs]⟩
    | some st' =>
      have hlt : Prod.Lex (· < ·) (· < ·) (outs st'.blockOut, st'.queue.length)
          (outs st.blockOut, st.queue.length) := by
        rcases (outs_step h.hasOuts hs).2 with ⟨ho, hq⟩ | ⟨b, -, -, hne, ho, -⟩
        · rw [ho]
          exact .right _ hq
        · rw [ho]
          exact .left _ _ (h.postFixed.recompute_lt hne)
      obtain ⟨fuel, r, hr⟩ := ih _ hlt (h.step hmono hs) rfl
      exact ⟨fuel + 1, r, by rw [solveLoop, hs]; exact hr⟩

/-- One iteration keeps the OUT states above whatever lies below its own equations. -/
theorem le_outs_step {st st' : SolverState S} {y : Address → S}
    (hy : ∀ a, y a ≤ equations f transfer a y) (hc : HasOuts f st)
    (hs : solveStep f transfer st = some st') (habove : y ≤ outs st.blockOut) :
    y ≤ outs st'.blockOut := by
  rcases (outs_step hc hs).2 with ⟨ho, -⟩ | ⟨b, -, -, -, ho, -⟩
  · rw [ho]
    exact habove
  · rw [ho]
    exact Descent.le_recompute hmono hy habove _

theorem solveForward_above (htop : ∀ s : S, s ≤ Lattice.top) {fuel : ℕ} {r : DataflowResult S}
    (h : solveForward fuel f transfer = .ok r) {y : Address → S}
    (hy : ∀ a, y a ≤ equations f transfer a y) : y ≤ outs r.blockOut := by
  have hstep : ∀ st st', (HasOuts f st ∧ y ≤ outs st.blockOut) →
      solveStep f transfer st = some st' → HasOuts f st' ∧ y ≤ outs st'.blockOut := by
    rintro st st' ⟨hc, habove⟩ hs
    exact ⟨(outs_step hc hs).1, le_outs_step hmono hy hc hs habove⟩
  obtain ⟨st, ⟨-, hst⟩, -, rfl⟩ := solveLoop_invariant hstep
    ⟨hasOuts_init, fun a => by rw [outs_init]; exact htop (y a)⟩ h
  exact hst

theorem solveForward_outs_greatest (htop : ∀ s : S, s ≤ Lattice.top)
    (hnd : (f.blocks.map BasicBlock.startAddress).Nodup) (hrev : EdgesReversed f) {fuel : ℕ}
    {r : DataflowResult S} (h : solveForward fuel f transfer = .ok r) :
    Descent.Greatest (equations f transfer) (outs r.blockOut) where
  le_self a := by
    cases hb : blockByAddr f a with
    | none =>
      unfold equations
      rw [hb]
      exact htop _
    | some b =>
      obtain ⟨hmem, rfl⟩ := mem_of_blockByAddr hb
      rw [equations_outs hb, outs, (solveForward_solved hnd hrev h b hmem).2]
      exact le_refl _
  greatest _ hy := solveForward_above hmono htop h hy

end Mono

structure Lowering (f : Function) (transfer : TransferFunction S) (st : SolverState S) :
    Prop where
  consistent : Consistent f transfer st
  postFixed : Descent.PostFixed (equations f transfer) (outs st.blockOut)

omit [DecidableEq S] in
theorem Lowering.descending (h : Lowering f transfer st) : Descending f transfer st :=
  ⟨h.consistent.isSome, h.postFixed⟩

variable (hnd : (f.blocks.map BasicBlock.startAddress).Nodup)

include hnd

omit [DecidableEq S] in
theorem lowering_init (htop : ∀ s : S, s ≤ Lattice.top) :
    Lowering f transfer (solveInit f : SolverState S) :=
  ⟨consistent_init hnd, (descending_init htop).postFixed⟩

theorem Lowering.step (hrev : EdgesReversed f) (hmono : ∀ a, Monotone (equations f transfer a))
    (h : Lowering f transfer st) (hs : solveStep f transfer st = some st') :
    Lowering f transfer st' :=
  ⟨h.consistent.step hnd hrev hs, (h.descending.step hmono hs).postFixed⟩

end Order

section Rank

theorem sum_map_add_le {α : Type*} {l : List α} {g g' : α → ℕ} {b : α} {d : ℕ} (hb : b ∈ l)
    (hle : ∀ c ∈ l, g' c ≤ g c) (hd : g' b + d ≤ g b) :
    (l.map g').sum + d ≤ (l.map g).sum := by
  induction l with
  | nil => cases hb
  | cons c l ih =>
    simp only [List.map_cons, List.sum_cons]
    rcases List.mem_cons.mp hb with rfl | hb
    · have := List.sum_le_sum fun x hx => hle x (List.mem_cons_of_mem _ hx)
      omega
    · have := ih hb fun x hx => hle x (List.mem_cons_of_mem _ hx)
      have := hle c (by simp)
      omega

/-- What the queue and the OUT states can still cost: each descent of the OUT state
of a block may queue all its successors. -/
def potential (f : Function) (rank : S → ℕ) (st : SolverState S) : ℕ :=
  st.queue.length +
    (f.blocks.map fun b => rank (outs st.blockOut b.startAddress) * b.successors.length).sum

omit [Lattice S] [DecidableEq S] in
theorem sum_recompute_add_le {F : Address → (Address → S) → S} {rank : S → ℕ} {x : Address → S}
    {b : BasicBlock} (hb : b ∈ f.blocks)
    (hlt : rank (F b.startAddress x) < rank (x b.startAddress)) :
    (f.blocks.map fun c => rank (Descent.recompute F x b.startAddress c.startAddress) *
        c.successors.length).sum + b.successors.length ≤
      (f.blocks.map fun c => rank (x c.startAddress) * c.successors.length).sum := by
  refine sum_map_add_le hb (fun c _ => Nat.mul_le_mul_right _ ?_) ?_
  · rw [Descent.recompute]
    by_cases hc : c.startAddress = b.startAddress
    · simpa [hc] using hlt.le
    · simp [hc]
  · rw [Descent.recompute, Function.update_self]
    calc _ = (rank (F b.startAddress x) + 1) * b.successors.length := by rw [Nat.succ_mul]
      _ ≤ _ := Nat.mul_le_mul_right _ hlt

variable [PartialOrder S] {K : S → Prop} {rank : S → ℕ}

/-- With a rank that descends strictly on the states that occur, the potential bounds
the number of iterations. -/
theorem Descending.solveLoop_of_potential (hmono : ∀ a, Monotone (equations f transfer a))
    (heq : ∀ b ∈ f.blocks, ∀ x : Address → S, (∀ a, K (x a)) →
      K (outOf transfer b fun p => some (x p)))
    (hrank : ∀ x y, K x → K y → x < y → rank x < rank y) (h : Descending f transfer st)
    (hK : ∀ a, K (outs st.blockOut a)) {fuel : ℕ} (hfuel : potential f rank st < fuel) :
    ∃ r, solveLoop f transfer fuel st = .ok r := by
  induction fuel generalizing st with
  | zero => exact absurd hfuel (Nat.not_lt_zero _)
  | succ fuel ih =>
    cases hs : solveStep f transfer st with
    | none => exact ⟨st.toDataflowResult, by rw [solveLoop, hs]⟩
    | some st' =>
      have hdec : potential f rank st' < potential f rank st ∧
          ∀ a, K (outs st'.blockOut a) := by
        rcases (outs_step h.hasOuts hs).2 with ⟨ho, hq⟩ | ⟨b, hb, hat, hne, ho, hq⟩
        · simp only [potential, ho]
          exact ⟨by omega, hK⟩
        · have hKb : K (equations f transfer b.startAddress (outs st.blockOut)) := by
            simp only [equations, hat]
            exact heq b hb _ hK
          have hlt : rank (equations f transfer b.startAddress (outs st.blockOut)) <
              rank (outs st.blockOut b.startAddress) :=
            hrank _ _ hKb (hK _) (lt_of_le_of_ne (h.postFixed _) hne)
          constructor
          · have hsum := sum_recompute_add_le hb hlt
            rw [← ho] at hsum
            simp only [potential]
            omega
          · intro a
            rw [ho, Descent.recompute]
            by_cases ha : a = b.startAddress
            · subst ha
              simpa using hKb
            · simpa [ha] using hK a
      obtain ⟨r, hr⟩ := ih (h.step hmono hs) hdec.2 (by omega)
      exact ⟨r, by rw [solveLoop, hs]; exact hr⟩

end Rank

end Decompiler.Dataflow
