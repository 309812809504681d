import Decompiler.Output.Variables

/-! # When the emitted arithmetic means that of the operation

The kinds of operands are taken in turn: literals and words, a pointer next to an
integer, two pointers. What fails is the counting in pointees, the eight bytes of a
pointer variable where four are meant, and what C does not allow.
-/

namespace Decompiler.Output

open Decompiler.Types

/-- With the variables taken by their locations, the assignment leaves the sum or difference that
the operation assigns, for all values of the operands. -/
def Agrees (f : Function) (o : Operator) (dest lhs rhs : Varnode) : Prop :=
  ∀ σ : State, σ.Bounded → evalAssignment f σ o dest lhs rhs =
    some (o.apply (σ.read lhs) (σ.read rhs) % 2 ^ (8 * dest.size.toNat))

variable {f : Function} {o : Operator} {dest lhs rhs : Varnode} {d : ℕ}

theorem evalAssignment_eq {σ : State} {a b : Value} (hdest : dest.space ≠ .constant)
    (hd : ctypeBytes (variableCtype f dest) = some d) (ha : evalOperand f σ lhs = some a)
    (hb : evalOperand f σ rhs = some b) :
    evalAssignment f σ o dest lhs rhs = (evalBinary o a b).map (· % 2 ^ (8 * d)) := by
  simp only [evalAssignment, hdest, if_false, ha, hb, hd, Option.bind_eq_bind, Option.bind_some]
  cases evalBinary o a b <;> rfl

theorem read_cell {σ : State} {v : Varnode} (h : v.space ≠ .constant) :
    σ.read v = σ.cells v.location := if_neg h

theorem emod_emod_of_widths {s : ℕ} (hw : Widths s d) (x : ℤ) :
    x % 2 ^ (8 * s) % 2 ^ (8 * d) = x % 2 ^ (8 * s) := by
  have hmod : x % 2 ^ (8 * s) < 2 ^ (8 * s) := Int.emod_lt_of_pos x (by positivity)
  have hle : (2 : ℤ) ^ (8 * s) ≤ 2 ^ (8 * d) := by
    rcases hw with ⟨rfl, rfl⟩ | ⟨rfl, rfl⟩ | ⟨rfl, rfl⟩ <;> norm_num
  exact Int.emod_eq_of_lt (Int.emod_nonneg x (by positivity)) (hmod.trans_le hle)

/-- Moving a pointer by an operand, counted in pointees where bytes are meant. -/
theorem forall_moved_iff {s k : ℕ} {p x : Varnode} (hw : Widths s d) (hp : p.size.toNat = s)
    (hx : x.size.toNat = s) (hspace : p.space ≠ .constant) (hne : p.location ≠ x.location)
    (hk : k ∈ [1, 2, 4, 8]) :
    (∀ σ : State, σ.Bounded → o.apply (σ.read p) (σ.read x * k) % 2 ^ 64 % 2 ^ (8 * d) =
      o.apply (σ.read p) (σ.read x) % 2 ^ (8 * s)) ↔ Unscaled s d k x := by
  have hmp : modulus p.location.size = 2 ^ (8 * s) := by rw [← hp]; rfl
  have hmx : modulus x.location.size = 2 ^ (8 * s) := by rw [← hx]; rfl
  simp only [read_cell hspace]
  by_cases hc : x.space = .constant
  · simp only [State.read_literal _ hc]
    rw [Unscaled, if_pos hc, ← forall_apply_literal_iff hw o, ← hmp]
    exact forall_cells_iff (P := fun a => o.apply a (x.offset.toNat * k) % 2 ^ 64 %
      2 ^ (8 * d) = o.apply a x.offset.toNat % 2 ^ (8 * s))
  · simp only [read_cell hc]
    rw [Unscaled, if_neg hc, ← forall_apply_word_iff hw o hk]
    have hall := forall_cells₂_iff hne (P := fun a n =>
      o.apply a (n * k) % 2 ^ 64 % 2 ^ (8 * d) = o.apply a n % 2 ^ (8 * s))
    rw [hall, hmp, hmx]
    exact ⟨fun h a n ha hn => h a ha n hn, fun h a ha n hn => h a n ha hn⟩

inductive IsInteger : Value → ℕ → Prop
  | literal (n : ℕ) : IsInteger (.literal n) n
  | word (bytes n : ℕ) : IsInteger (.word bytes n) n

theorem IsInteger.offset {a : Value} {n : ℕ} (h : IsInteger a n) (pointee : String) (p : ℕ) :
    evalBinary o (.pointer pointee p) a = moved o pointee p n := by cases h <;> rfl

theorem IsInteger.base {a : Value} {n : ℕ} (h : IsInteger a n) (pointee : String) (p : ℕ) :
    evalBinary o a (.pointer pointee p) = if o = .add then moved o pointee p n else none := by
  cases h <;> rfl

theorem evalOperand_integer {v : Varnode} (hi : Inferred (programOps f) f.types)
    (hv : ¬ IsPointer (programOps f) v) (σ : State) :
    ∃ a, evalOperand f σ v = some a ∧ IsInteger a (σ.read v) := by
  by_cases hc : v.space = .constant
  · rw [σ.read_literal hc]
    exact ⟨_, evalOperand_literal hc, .literal _⟩
  · rw [read_cell hc]
    exact ⟨_, evalOperand_word hi hc hv, .word _ _⟩

theorem evalOperand_congr {σ : State} {v w : Varnode} (h : v.location = w.location) :
    evalOperand f σ v = evalOperand f σ w := by
  obtain ⟨l, name⟩ := v
  obtain ⟨l', name'⟩ := w
  obtain rfl : l = l' := h
  rfl

theorem ne_of_isPointer {ops : List Instruction} {v w : Varnode} (hv : IsPointer ops v)
    (hw : ¬ IsPointer ops w) : v.location ≠ w.location := by
  intro heq
  rw [IsPointer, heq] at hv
  exact hw hv

variable (hi : Inferred (programOps f) f.types) (hdest : dest.space ≠ .constant)
  (hd : ctypeBytes (variableCtype f dest) = some d) (hw : Widths dest.size.toNat d)
  (hl : lhs.size = dest.size) (hr : rhs.size = dest.size)

theorem Widths.wordBytes {v : Varnode} (hw : Widths v.size.toNat d) :
    wordBytes v.size = v.size.toNat := by
  apply wordBytes_of_mem
  rcases hw with ⟨h, -⟩ | ⟨h, -⟩ | ⟨h, -⟩ <;> simp [h]

include hi hdest hd hw hl hr

theorem agrees_words (hlp : ¬ IsPointer (programOps f) lhs) (hrp : ¬ IsPointer (programOps f) rhs)
    (h : lhs.space ≠ .constant ∨ rhs.space ≠ .constant) : Agrees f o dest lhs rhs := by
  intro σ _
  have hword := hw.wordBytes
  by_cases hlc : lhs.space = .constant
  · have hrc := h.resolve_left (not_not.mpr hlc)
    rw [evalAssignment_eq hdest hd (evalOperand_literal hlc) (evalOperand_word hi hrc hrp), hr,
      hword, σ.read_literal hlc, read_cell hrc]
    exact congrArg some (emod_emod_of_widths hw _)
  · by_cases hrc : rhs.space = .constant
    · rw [evalAssignment_eq hdest hd (evalOperand_word hi hlc hlp) (evalOperand_literal hrc), hl,
        hword, σ.read_literal hrc, read_cell hlc]
      exact congrArg some (emod_emod_of_widths hw _)
    · rw [evalAssignment_eq hdest hd (evalOperand_word hi hlc hlp) (evalOperand_word hi hrc hrp),
        hl, hr, hword, read_cell hlc, read_cell hrc, evalBinary, Nat.max_self]
      exact congrArg some (emod_emod_of_widths hw _)

omit hi hw hl hr in
theorem agrees_literals_iff (hlc : lhs.space = .constant) (hrc : rhs.space = .constant) :
    Agrees f o dest lhs rhs ↔ o.apply lhs.offset.toNat rhs.offset.toNat % 2 ^ (8 * d) =
      o.apply lhs.offset.toNat rhs.offset.toNat % 2 ^ (8 * dest.size.toNat) := by
  have heval : ∀ σ, evalAssignment f σ o dest lhs rhs =
      some (o.apply lhs.offset.toNat rhs.offset.toNat % 2 ^ (8 * d)) := fun σ =>
    evalAssignment_eq hdest hd (evalOperand_literal hlc) (evalOperand_literal hrc)
  constructor
  · intro h
    have hzero := h State.zero State.bounded_zero
    rw [heval, State.zero.read_literal hlc, State.zero.read_literal hrc] at hzero
    exact Option.some.inj hzero
  · intro h σ _
    rw [heval, σ.read_literal hlc, σ.read_literal hrc, h]

theorem agrees_offset_iff {k : ℕ} (hlp : IsPointer (programOps f) lhs)
    (hrp : ¬ IsPointer (programOps f) rhs) (hk : Pointee (programOps f) lhs.location k) :
    Agrees f o dest lhs rhs ↔ Unscaled dest.size.toNat d k rhs := by
  obtain ⟨pointee, bytes, hbytes, hpointee, hlval⟩ := evalOperand_pointer hi hlp
  obtain rfl : bytes = k := (hpointee.pointsTo hi).unique (hk.pointsTo hi)
  rw [← forall_moved_iff hw (by rw [hl]) (by rw [hr]) hlp.space_ne (ne_of_isPointer hlp hrp)
    (ctypeBytes_mem hbytes)]
  refine forall₂_congr fun σ _ => ?_
  obtain ⟨b, hb, hint⟩ := evalOperand_integer hi hrp σ
  rw [evalAssignment_eq hdest hd (hlval σ) hb, hint.offset, moved, hbytes, read_cell hlp.space_ne]
  exact Option.some_inj

theorem agrees_base_iff {k : ℕ} (hlp : ¬ IsPointer (programOps f) lhs)
    (hrp : IsPointer (programOps f) rhs) (hk : Pointee (programOps f) rhs.location k) :
    Agrees f .add dest lhs rhs ↔ Unscaled dest.size.toNat d k lhs := by
  obtain ⟨pointee, bytes, hbytes, hpointee, hrval⟩ := evalOperand_pointer hi hrp
  obtain rfl : bytes = k := (hpointee.pointsTo hi).unique (hk.pointsTo hi)
  rw [← forall_moved_iff (o := .add) hw (by rw [hr]) (by rw [hl]) hrp.space_ne
    (ne_of_isPointer hrp hlp) (ctypeBytes_mem hbytes)]
  refine forall₂_congr fun σ _ => ?_
  obtain ⟨a, ha, hint⟩ := evalOperand_integer hi hlp σ
  have hcomm : Operator.apply .add (σ.read lhs) (σ.read rhs) =
      Operator.apply .add (σ.read rhs) (σ.read lhs) := add_comm _ _
  rw [evalAssignment_eq hdest hd ha (hrval σ), hint.base, if_pos rfl, moved, hbytes, hcomm,
    read_cell hrp.space_ne]
  exact Option.some_inj

omit hw hl hr in
theorem not_agrees_base (hlp : ¬ IsPointer (programOps f) lhs)
    (hrp : IsPointer (programOps f) rhs) : ¬ Agrees f .sub dest lhs rhs := by
  intro h
  obtain ⟨pointee, -, -, -, hrval⟩ := evalOperand_pointer hi hrp
  obtain ⟨a, ha, hint⟩ := evalOperand_integer hi hlp State.zero
  have hzero := h State.zero State.bounded_zero
  rw [evalAssignment_eq hdest hd ha (hrval _), hint.base] at hzero
  cases hzero

omit hw hl hr in
theorem not_agrees_sum (hlp : IsPointer (programOps f) lhs) (hrp : IsPointer (programOps f) rhs) :
    ¬ Agrees f .add dest lhs rhs := by
  intro h
  obtain ⟨p, -, -, -, hlval⟩ := evalOperand_pointer hi hlp
  obtain ⟨q, -, -, -, hrval⟩ := evalOperand_pointer hi hrp
  have hzero := h State.zero State.bounded_zero
  rw [evalAssignment_eq hdest hd (hlval _) (hrval _), evalBinary] at hzero
  cases hzero

omit hw hl hr in
theorem agrees_same (hlp : IsPointer (programOps f) lhs) (hsame : lhs.location = rhs.location) :
    Agrees f .sub dest lhs rhs := by
  intro σ _
  have hrp : IsPointer (programOps f) rhs := by rwa [IsPointer, ← hsame]
  obtain ⟨p, bytes, hbytes, -, hlval⟩ := evalOperand_pointer hi hlp
  have hrval := (evalOperand_congr hsame).symm.trans (hlval σ)
  rw [evalAssignment_eq hdest hd (hlval σ) hrval, evalBinary, read_cell hlp.space_ne,
    read_cell hrp.space_ne, hsame]
  simp [hbytes, Operator.apply]

theorem agrees_difference_iff (hlp : IsPointer (programOps f) lhs)
    (hrp : IsPointer (programOps f) rhs) (hne : lhs.location ≠ rhs.location) :
    Agrees f .sub dest lhs rhs ↔ Pointee (programOps f) lhs.location 1 ∧
      Pointee (programOps f) rhs.location 1 ∧ d = dest.size.toNat := by
  obtain ⟨p, bytes, hp, hbytes, hlval⟩ := evalOperand_pointer hi hlp
  obtain ⟨q, bytes', hq, hbytes', hrval⟩ := evalOperand_pointer hi hrp
  have hml : modulus lhs.location.size = 2 ^ (8 * dest.size.toNat) := by rw [← hl]; rfl
  have hmr : modulus rhs.location.size = 2 ^ (8 * dest.size.toNat) := by rw [← hr]; rfl
  let g (a b : ℕ) : Prop := (evalBinary .sub (.pointer p a) (.pointer q b)).map
    (· % 2 ^ (8 * d)) = some ((a - b : ℤ) % 2 ^ (8 * dest.size.toNat))
  have hagrees : Agrees f .sub dest lhs rhs ↔
      ∀ a < 2 ^ (8 * dest.size.toNat), ∀ b < 2 ^ (8 * dest.size.toNat), g a b := by
    rw [← hml]
    nth_rewrite 2 [hml]
    rw [← hmr, ← forall_cells₂_iff hne (P := g)]
    refine forall₂_congr fun σ _ => ?_
    rw [evalAssignment_eq hdest hd (hlval σ) (hrval σ), read_cell hlp.space_ne,
      read_cell hrp.space_ne]
    exact Iff.rfl
  rw [hagrees]
  constructor
  · intro h
    have hone := h 1 (Nat.one_lt_two_pow (by rcases hw with ⟨h, -⟩ | ⟨h, -⟩ | ⟨h, -⟩ <;> omega)) 0
      (Nat.two_pow_pos _)
    have hpq : p = q := by
      by_contra hpq
      simp [g, evalBinary, hpq] at hone
    subst hpq
    obtain rfl : bytes = bytes' := Option.some.inj (hp.symm.trans hq)
    have hunit : bytes = 1 := by
      by_contra hunit
      have hndvd : ¬ (bytes : ℤ) ∣ 1 := by
        intro hdvd
        exact hunit (Nat.dvd_one.mp (by exact_mod_cast hdvd))
      simp [g, evalBinary, hp, hndvd] at hone
    subst hunit
    refine ⟨hbytes, hbytes', (forall_sub_iff hw).mp ?_⟩
    intro a ha b hb
    simpa [g, evalBinary, hp] using h a ha b hb
  · rintro ⟨hl1, hr1, hds⟩ a ha b hb
    obtain rfl : bytes = 1 := (hbytes.pointsTo hi).unique (hl1.pointsTo hi)
    obtain rfl : bytes' = 1 := (hbytes'.pointsTo hi).unique (hr1.pointsTo hi)
    obtain rfl : p = q := (ctypeBytes_eq_one hp).trans (ctypeBytes_eq_one hq).symm
    simp [g, evalBinary, hp, hds]

/-- The printed assignment means that of the operation for exactly the faithful operands. -/
theorem agrees_iff :
    Agrees f o dest lhs rhs ↔ Faithful (programOps f) dest.size.toNat d o lhs rhs := by
  have hpointee : ∀ {v}, IsPointer (programOps f) v → ∃ k, Pointee (programOps f) v.location k := by
    intro v hv
    obtain ⟨-, k, -, hk, -⟩ := evalOperand_pointer hi hv
    exact ⟨k, hk⟩
  constructor
  · intro h
    by_cases hlp : IsPointer (programOps f) lhs
    · obtain ⟨k, hk⟩ := hpointee hlp
      by_cases hrp : IsPointer (programOps f) rhs
      · cases o with
        | add => exact absurd h (not_agrees_sum hi hdest hd hlp hrp)
        | sub =>
          by_cases hne : lhs.location = rhs.location
          · exact .same hlp hne
          · obtain ⟨hl1, hr1, hds⟩ := (agrees_difference_iff hi hdest hd hw hl hr hlp hrp hne).mp h
            exact .difference hlp hrp hl1 hr1 hds
      · exact .offset hlp hrp hk ((agrees_offset_iff hi hdest hd hw hl hr hlp hrp hk).mp h)
    · by_cases hrp : IsPointer (programOps f) rhs
      · obtain ⟨k, hk⟩ := hpointee hrp
        cases o with
        | add => exact .base hlp hrp hk ((agrees_base_iff hi hdest hd hw hl hr hlp hrp hk).mp h)
        | sub => exact absurd h (not_agrees_base hi hdest hd hlp hrp)
      · by_cases hconst : lhs.space = .constant ∧ rhs.space = .constant
        · obtain ⟨hlc, hrc⟩ := hconst
          exact .literals hlc hrc ((agrees_literals_iff hdest hd hlc hrc).mp h)
        · exact .words hlp hrp (not_and_or.mp hconst)
  · intro h
    cases h with
    | words hlp hrp hconst => exact agrees_words hi hdest hd hw hl hr hlp hrp hconst
    | literals hlc hrc heq => exact (agrees_literals_iff hdest hd hlc hrc).mpr heq
    | offset hlp hrp hk hunscaled =>
      exact (agrees_offset_iff hi hdest hd hw hl hr hlp hrp hk).mpr hunscaled
    | base hlp hrp hk hunscaled =>
      exact (agrees_base_iff hi hdest hd hw hl hr hlp hrp hk).mpr hunscaled
    | same hlp hsame => exact agrees_same hi hdest hd hlp hsame
    | difference hlp hrp hl1 hr1 hds =>
      by_cases hne : lhs.location = rhs.location
      · exact agrees_same hi hdest hd hlp hne
      · exact (agrees_difference_iff hi hdest hd hw hl hr hlp hrp hne).mpr ⟨hl1, hr1, hds⟩

omit hi hdest hd hw hl hr

/-- The printed assignment means that of the operation if its names tell the locations apart and
it agrees on their values. -/
theorem means_iff_agrees : Means f o dest lhs rhs ↔
    dest.space ≠ .constant ∧ NamesTell (programOps f) dest lhs rhs ∧ Agrees f o dest lhs rhs := by
  constructor
  · intro h
    obtain ⟨line, hline, -⟩ := h.printed
    have hdest := space_ne_of_statement hline
    have hnames := namesTell_iff.mpr h.names
    refine ⟨hdest, hnames, fun σ hσ => ?_⟩
    have hvalue := h.value σ hσ
    rw [hnames.evalStmt_eq σ hdest] at hvalue
    obtain ⟨value, hvalue, heq⟩ := Option.map_eq_some_iff.mp hvalue
    rw [hvalue, (Prod.mk.inj heq).2]
  · rintro ⟨hdest, hnames, h⟩
    refine ⟨⟨_, statement_assignment hdest, text_assignment⟩, namesTell_iff.mp hnames, ?_⟩
    intro σ hσ
    rw [hnames.evalStmt_eq σ hdest, h σ hσ]
    rfl

/-- `r1 = r4; r2 = *r1; r3 = r1 + 4` on registers of eight bytes, a number of which is loaded. -/
def offsetPointer (bytes : UInt8) : Function :=
  let r (id : UInt64) := Varnode.new .register id 8
  { Function.new "offset_pointer" 0 with
    blocks := [(BasicBlock.new 0).push 0
      [.copy (r 1) (r 4), .load (.new .register 2 bytes) (r 1),
        .intAdd (r 3) (r 1) (Varnode.constant 4 8)]] }

end Decompiler.Output
