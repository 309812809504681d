import Decompiler.ConstProp.Folding
import Decompiler.ConstProp.Termination

/-! # What the paths of a graph carry

Which values the paths carry to a point is defined from the operations and the
edges alone. The analysis result lies below each of them, and is itself one of them
unless it is `top`.
-/

namespace Decompiler.ConstProp

open Dataflow

/-- Some path carries a value of a location to the point before operation `i` of the
block at an address: it is a literal, or assigned on the way and kept since then. Two
different constants that meet make it `notConstant`. -/
inductive Carries (bs : List BasicBlock) : Address → ℕ → Location → ConstValue → Prop
  | literal {a : Address} {i : ℕ} {l : Location} (space : l.space = .constant) :
    Carries bs a i l (.const l.offset)
  | keep {b : BasicBlock} {i : ℕ} {op : Instruction} {l : Location} {w : ConstValue}
    (mem : b ∈ bs) (get : b.ops[i]? = some op)
    (other : ∀ dest, op.opDest = some dest → l ≠ dest.location)
    (before : Carries bs b.startAddress i l w) : Carries bs b.startAddress (i + 1) l w
  | copy {b : BasicBlock} {i : ℕ} {dest src : Varnode} {w : ConstValue}
    (mem : b ∈ bs) (get : b.ops[i]? = some (.copy dest src))
    (before : Carries bs b.startAddress i src.location w) :
    Carries bs b.startAddress (i + 1) dest.location w
  | load {b : BasicBlock} {i : ℕ} {dest addr : Varnode}
    (mem : b ∈ bs) (get : b.ops[i]? = some (.load dest addr)) :
    Carries bs b.startAddress (i + 1) dest.location .notConstant
  | binop {b : BasicBlock} {i : ℕ} {op : Instruction} {dest lhs rhs : Varnode}
    {f : UInt64 → UInt64 → UInt64} {x y : UInt64}
    (mem : b ∈ bs) (get : b.ops[i]? = some op) (bin : Binop op dest lhs rhs f)
    (left : Carries bs b.startAddress i lhs.location (.const x))
    (right : Carries bs b.startAddress i rhs.location (.const y)) :
    Carries bs b.startAddress (i + 1) dest.location (.const (f x y))
  | binop_notConstant {b : BasicBlock} {i : ℕ} {op : Instruction} {dest lhs rhs v : Varnode}
    {f : UInt64 → UInt64 → UInt64}
    (mem : b ∈ bs) (get : b.ops[i]? = some op) (bin : Binop op dest lhs rhs f)
    (operand : v = lhs ∨ v = rhs)
    (before : Carries bs b.startAddress i v.location .notConstant) :
    Carries bs b.startAddress (i + 1) dest.location .notConstant
  | edge {b c : BasicBlock} {l : Location} {w : ConstValue} (mem : b ∈ bs) (succ_mem : c ∈ bs)
    (edge : c.startAddress ∈ b.successors)
    (before : Carries bs b.startAddress b.ops.length l w) : Carries bs c.startAddress 0 l w
  | meet {a : Address} {i : ℕ} {l : Location} {x y : UInt64} (ne : x ≠ y)
    (left : Carries bs a i l (.const x)) (right : Carries bs a i l (.const y)) :
    Carries bs a i l .notConstant

def after (ops : List Instruction) (s : ConstState) (i : ℕ) : ConstState :=
  (ops.take i).foldl (fun s op => transferInstruction op s) s

@[simp] theorem after_zero (ops : List Instruction) (s : ConstState) : after ops s 0 = s := rfl

theorem after_succ {ops : List Instruction} {i : ℕ} {op : Instruction} (h : ops[i]? = some op)
    (s : ConstState) : after ops s (i + 1) = transferInstruction op (after ops s i) := by
  simp [after, List.take_add_one, h]

theorem after_length (b : BasicBlock) (s : ConstState) :
    after b.ops s b.ops.length = transferBlock b s constantPropagation := by
  rw [after, List.take_length, transferBlock_eq_foldl]
  rfl

theorem after_of_terminators {ops : List Instruction} {i : ℕ}
    (h : ∀ op ∈ ops.drop i, op.isTerminator) (s : ConstState) :
    after ops s ops.length = after ops s i := by
  have hdrop : ∀ l : List Instruction, (∀ op ∈ l, op.isTerminator) → ∀ t : ConstState,
      l.foldl (fun s op => transferInstruction op s) t = t := by
    intro l hl t
    induction l with
    | nil => rfl
    | cons op l ih =>
      have hop := hl op (by simp)
      have hid : transferInstruction op t = t := by
        cases op <;> first | rfl | cases hop
      rw [List.foldl_cons, hid]
      exact ih fun o ho => hl o (List.mem_cons_of_mem _ ho)
  rw [after, List.take_length, ← List.take_append_drop i ops, List.foldl_append, hdrop _ h,
    List.take_append_drop]
  rfl

def CarriedTo (bs : List BasicBlock) (a : Address) (i : ℕ) (s : ConstState) : Prop :=
  ∀ l, s.get l ≠ .top → Carries bs a i l (s.get l)

variable {bs : List BasicBlock}

theorem carriedTo_top (a : Address) (i : ℕ) : CarriedTo bs a i Lattice.top := by
  intro l hl
  by_cases hspace : l.space = .constant
  · rw [ConstState.get_of_constant _ hspace]
    exact .literal hspace
  · exact absurd (ConstState.get_top hspace) hl

theorem CarriedTo.merge {a : Address} {i : ℕ} {s t : ConstState} (hs : CarriedTo bs a i s)
    (ht : CarriedTo bs a i t) : CarriedTo bs a i (s.merge t) := by
  intro l hl
  have hs := hs l
  have ht := ht l
  rw [ConstState.get_merge] at hl ⊢
  cases hsl : s.get l with
  | top =>
    rw [hsl, ConstValue.top_merge] at hl
    exact ht hl
  | notConstant =>
    rw [hsl] at hs
    rw [ConstValue.notConstant_merge]
    exact hs nofun
  | const x =>
    rw [hsl] at hs
    cases htl : t.get l with
    | top =>
      rw [ConstValue.merge_top]
      exact hs nofun
    | notConstant =>
      rw [htl] at ht
      rw [ConstValue.merge_notConstant]
      exact ht nofun
    | const y =>
      rw [htl] at ht
      rw [ConstValue.const_merge_const]
      split
      · exact hs nofun
      · exact .meet ‹_› (hs nofun) (ht nofun)

theorem evalBinop_eq_notConstant {a b : ConstValue} {f : UInt64 → UInt64 → UInt64}
    (h : evalBinop a b f = .notConstant) : a = .notConstant ∨ b = .notConstant := by
  cases a <;> cases b <;> simp_all [evalBinop]

theorem CarriedTo.transfer {b : BasicBlock} (hb : b ∈ bs) {i : ℕ} {op : Instruction}
    (hget : b.ops[i]? = some op) (hop : op.WellFormed) {s : ConstState}
    (hs : CarriedTo bs b.startAddress i s) :
    CarriedTo bs b.startAddress (i + 1) (transferInstruction op s) := by
  intro l hl
  by_cases hspace : l.space = .constant
  · rw [ConstState.get_of_constant _ hspace]
    exact .literal hspace
  rcases transferInstruction_eq op s with ⟨h, hnone⟩ | ⟨dest, v, hdest, h⟩
  · rw [h] at hl ⊢
    exact .keep hb hget (fun dest hdest => by simp [hnone] at hdest) (hs l hl)
  by_cases hne : l = dest.location
  · subst hne
    rcases opDest_cases hdest with ⟨src, rfl⟩ | ⟨addr, rfl⟩ | ⟨srcs, rfl⟩ | ⟨lhs, rhs, f, hbin⟩
    · have hv : (transferInstruction (.copy dest src) s).get dest.location =
          s.get src.location := ConstState.get_set_self s hspace _
      rw [hv] at hl ⊢
      exact .copy hb hget (hs _ hl)
    · have hv : (transferInstruction (.load dest addr) s).get dest.location = .notConstant :=
        ConstState.get_set_self s hspace _
      rw [hv]
      exact .load hb hget
    · exact absurd hop id
    · rw [hbin.get_dest hop] at hl ⊢
      cases hv : evalBinop (s.get lhs.location) (s.get rhs.location) f with
      | top => exact absurd hv hl
      | const x =>
        obtain ⟨y, z, hy, hz, rfl⟩ := evalBinop_eq_const hv
        exact .binop hb hget hbin (hy ▸ hs _ (by simp [hy])) (hz ▸ hs _ (by simp [hz]))
      | notConstant =>
        rcases evalBinop_eq_notConstant hv with hv | hv
        · exact .binop_notConstant hb hget hbin (Or.inl rfl) (hv ▸ hs _ (by simp [hv]))
        · exact .binop_notConstant hb hget hbin (Or.inr rfl) (hv ▸ hs _ (by simp [hv]))
  · rw [h, ConstState.get_set_of_ne s v hne] at hl ⊢
    refine .keep hb hget (fun d hd => ?_) (hs l hl)
    rw [hdest] at hd
    exact Option.some.inj hd ▸ hne

theorem CarriedTo.after {b : BasicBlock} (hb : b ∈ bs) (hwf : ∀ op ∈ b.ops, op.WellFormed)
    {s : ConstState} (hs : CarriedTo bs b.startAddress 0 s) :
    ∀ i ≤ b.ops.length, CarriedTo bs b.startAddress i (after b.ops s i) := by
  intro i
  induction i with
  | zero => exact fun _ => hs
  | succ i ih =>
    intro hi
    have hget : b.ops[i]? = some b.ops[i] := List.getElem?_eq_getElem hi
    rw [after_succ hget]
    exact (ih (Nat.le_of_succ_le hi)).transfer hb hget (hwf _ (List.mem_of_getElem? hget))

section Result

variable {f : Function} (hwf : ∀ b ∈ f.blocks, ∀ op ∈ b.ops, op.WellFormed)
  (hnd : (f.blocks.map BasicBlock.startAddress).Nodup) (hrev : EdgesReversed f)

include hrev in
theorem carriedTo_inOf {x : Address → ConstState}
    (hx : ∀ b ∈ f.blocks, CarriedTo f.blocks b.startAddress b.ops.length (x b.startAddress))
    {c : BasicBlock} (hc : c ∈ f.blocks) :
    CarriedTo f.blocks c.startAddress 0 (inOf c fun p => some (x p)) := by
  have hpred : ∀ p ∈ c.predecessors, CarriedTo f.blocks c.startAddress 0 (x p) := by
    intro p hp l hl
    obtain ⟨b, hb, rfl, hedge⟩ := (hrev c hc p).mp hp
    exact .edge hb hc hedge (hx b hb l hl)
  cases hp : c.predecessors with
  | nil =>
    rw [inOf_eq_top hp]
    exact carriedTo_top _ _
  | cons p l =>
    rw [hp] at hpred
    rw [inOf_eq_foldl hp]
    exact List.foldlRecOn l _ (hpred p (by simp)) fun s hs q hq =>
      hs.merge (hpred q (List.mem_cons_of_mem _ hq))

include hwf hnd hrev

/-- What the result knows at a point is carried there. -/
theorem carriedTo_result {fuel : ℕ} {r : DataflowResult ConstState}
    (h : solveForward fuel f constantPropagation = .ok r) {b : BasicBlock} (hb : b ∈ f.blocks)
    {i : ℕ} (hi : i ≤ b.ops.length) :
    CarriedTo f.blocks b.startAddress i (after b.ops (inOf b r.blockOut) i) := by
  have hout : ∀ a, ∀ b ∈ f.blocks, b.startAddress = a →
      CarriedTo f.blocks b.startAddress b.ops.length (outs r.blockOut a) := by
    refine solveForward_outs (K := fun a s => ∀ b ∈ f.blocks, b.startAddress = a →
      CarriedTo f.blocks b.startAddress b.ops.length s) (fun a b _ _ => carriedTo_top _ _)
      (fun b hb x hx => ?_) h
    intro c hc hcb
    obtain rfl := List.inj_on_of_nodup_map hnd hc hb hcb
    have hin := carriedTo_inOf hrev (fun d hd => hx _ d hd rfl) hc
    have hall := hin.after hc (hwf c hc) c.ops.length (Nat.le_refl _)
    rwa [after_length] at hall
  rw [← inOf_outs]
  exact (carriedTo_inOf hrev (fun c hc => hout _ c hc rfl) hb).after hb (hwf b hb) i hi

omit hwf hnd hrev in
theorem foldl_merge_get_le (x : Address → ConstState) (k : Location) (l : List Address)
    (s : ConstState) :
    (l.foldl (fun acc q => Lattice.merge acc (x q)) s).get k ≤ s.get k ∧
      ∀ q ∈ l, (l.foldl (fun acc q => Lattice.merge acc (x q)) s).get k ≤ (x q).get k := by
  induction l generalizing s with
  | nil => exact ⟨le_refl _, by simp⟩
  | cons p l ih =>
    obtain ⟨hs, hq⟩ := ih (Lattice.merge s (x p))
    have hmerge : (Lattice.merge s (x p)).get k = (s.get k).merge ((x p).get k) :=
      ConstState.get_merge s (x p) k
    rw [hmerge] at hs
    refine ⟨hs.trans inf_le_left, fun q hmem => ?_⟩
    rcases List.mem_cons.mp hmem with rfl | hmem
    · exact hs.trans inf_le_right
    · exact hq q hmem

omit hwf hnd hrev in
theorem inOf_get_le {c : BasicBlock} {p : Address} (hp : p ∈ c.predecessors)
    (o : Address → Option ConstState) (k : Location) :
    (inOf c o).get k ≤ (outs o p).get k := by
  rw [← inOf_outs]
  cases hpreds : c.predecessors with
  | nil => simp [hpreds] at hp
  | cons q l =>
    rw [inOf_eq_foldl hpreds]
    obtain ⟨hq, hl⟩ := foldl_merge_get_le (outs o) k l (outs o q)
    rcases List.mem_cons.mp (hpreds ▸ hp) with rfl | hp
    · exact hq
    · exact hl p hp

omit hwf hnd hrev in
theorem outs_eq_after {r : DataflowResult ConstState} (hr : Solved f constantPropagation r)
    {b : BasicBlock} (hb : b ∈ f.blocks) :
    outs r.blockOut b.startAddress = after b.ops (inOf b r.blockOut) b.ops.length := by
  rw [outs, (hr b hb).2, after_length]
  rfl

theorem get_le_of_carries {r : DataflowResult ConstState}
    (hr : Solved f constantPropagation r) {a : Address} {i : ℕ} {l : Location} {w : ConstValue}
    (h : Carries f.blocks a i l w) :
    ∀ b ∈ f.blocks, b.startAddress = a → i ≤ b.ops.length →
      (after b.ops (inOf b r.blockOut) i).get l ≤ w := by
  have heq : ∀ {b c : BasicBlock}, b ∈ f.blocks → c ∈ f.blocks →
      b.startAddress = c.startAddress → b = c := fun hb hc h =>
    List.inj_on_of_nodup_map hnd hb hc h
  induction h with
  | literal hspace =>
    intro b _ _ _
    rw [ConstState.get_of_constant _ hspace]
  | @keep b i op l w hb hget hother _ ih =>
    rintro c hc hcb hi
    obtain rfl := heq hc hb hcb
    have ih := ih c hc rfl (Nat.le_of_succ_le hi)
    rw [after_succ hget]
    rcases transferInstruction_eq op (after c.ops (inOf c r.blockOut) i) with
      ⟨h, -⟩ | ⟨dest, v, hdest, h⟩
    · rw [h]
      exact ih
    · rw [h, ConstState.get_set_of_ne _ v (hother dest hdest)]
      exact ih
  | @copy b i dest src w hb hget _ ih =>
    rintro c hc hcb hi
    obtain rfl := heq hc hb hcb
    have hdest := (hwf c hc _ (List.mem_of_getElem? hget)).1
    rw [after_succ hget]
    exact (ConstState.get_set_self _ hdest _).le.trans (ih c hc rfl (Nat.le_of_succ_le hi))
  | @load b i dest addr hb hget =>
    rintro c hc hcb hi
    obtain rfl := heq hc hb hcb
    have hdest := (hwf c hc _ (List.mem_of_getElem? hget)).1
    rw [after_succ hget]
    exact (ConstState.get_set_self _ hdest _).le
  | @binop b i op dest lhs rhs g x y hb hget hbin _ _ ihl ihr =>
    rintro c hc hcb hi
    obtain rfl := heq hc hb hcb
    have ihl := ihl c hc rfl (Nat.le_of_succ_le hi)
    have ihr := ihr c hc rfl (Nat.le_of_succ_le hi)
    rw [after_succ hget, hbin.get_dest (hwf c hc _ (List.mem_of_getElem? hget))]
    exact evalBinop_mono g ihl ihr
  | @binop_notConstant b i op dest lhs rhs v g hb hget hbin hv _ ih =>
    rintro c hc hcb hi
    obtain rfl := heq hc hb hcb
    have ih := ih c hc rfl (Nat.le_of_succ_le hi)
    rw [after_succ hget, hbin.get_dest (hwf c hc _ (List.mem_of_getElem? hget))]
    rcases hv with rfl | rfl
    · exact (evalBinop_mono_left g ih _).trans (evalBinop_notConstant_left g _).le
    · exact (evalBinop_mono_right g _ ih).trans (evalBinop_notConstant_right g _).le
  | @edge b c l w hb hc hedge _ ih =>
    rintro d hd hdc _
    obtain rfl := heq hd hc hdc
    have hpred : b.startAddress ∈ d.predecessors := (hrev d hd _).mpr ⟨b, hb, rfl, hedge⟩
    refine (inOf_get_le hpred r.blockOut l).trans ?_
    rw [outs_eq_after hr hb]
    exact ih b hb rfl (Nat.le_refl _)
  | meet hne _ _ ihl ihr =>
    intro b hb hba hi
    rcases ConstValue.le_const_iff.mp (ihl b hb hba hi) with hx | hx
    · rcases ConstValue.le_const_iff.mp (ihr b hb hba hi) with hy | hy
      · exact absurd (ConstValue.const.inj (hx.symm.trans hy)) hne
      · exact hy.le
    · exact hx.le

/-- The paths carry one constant and nothing else to a point. -/
def CarriesOnly (bs : List BasicBlock) (a : Address) (i : ℕ) (l : Location) (x : UInt64) : Prop :=
  Carries bs a i l (.const x) ∧ ¬ Carries bs a i l .notConstant

/-- The constants of the result are those that alone are carried. -/
theorem get_eq_const_iff {fuel : ℕ} {r : DataflowResult ConstState}
    (h : solveForward fuel f constantPropagation = .ok r) {b : BasicBlock} (hb : b ∈ f.blocks)
    {i : ℕ} (hi : i ≤ b.ops.length) {l : Location} {x : UInt64} :
    (after b.ops (inOf b r.blockOut) i).get l = .const x ↔
      CarriesOnly f.blocks b.startAddress i l x := by
  have hle := fun w (hw : Carries f.blocks b.startAddress i l w) =>
    get_le_of_carries hwf hnd hrev (solveForward_solved hnd hrev h) hw b hb rfl hi
  constructor
  · intro hx
    refine ⟨hx ▸ carriedTo_result hwf hnd hrev h hb hi l (by simp [hx]), fun hn => ?_⟩
    have := le_antisymm (hle _ hn) (ConstValue.notConstant_le _)
    simp [hx] at this
  · rintro ⟨hx, hn⟩
    rcases ConstValue.le_const_iff.mp (hle _ hx) with hv | hv
    · exact hv
    · exact absurd (hv ▸ carriedTo_result hwf hnd hrev h hb hi l (by simp [hv])) hn

end Result

end Decompiler.ConstProp
