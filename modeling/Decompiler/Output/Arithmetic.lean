import Mathlib.Algebra.Ring.Divisibility.Basic
import Mathlib.Tactic.NormNum
import Decompiler.Ir.Semantics
import Decompiler.Output.Ctypes
import Decompiler.Output.Declarations

/-! # Meaning of the emitted additions and subtractions

`dest = lhs + rhs;` is evaluated as C evaluates it under the declared types: integers wrap
at their width, an integer next to a pointer counts pointees, and two pointers to the
same type are subtracted in pointees. Here the variable of a varnode is that of its location;
one that is not declared is an unsigned integer of its size.
-/

namespace Decompiler.Output

open Decompiler.Types

inductive Ctype where
  | word (bytes : ℕ)
  | pointer (pointee : String)

def readCtype (ct : String) : Option Ctype :=
  if ct.toList.getLast? = some '*' then some (.pointer (String.ofList ct.toList.dropLast))
  else (ctypeBytes ct).map .word

def variableCtype (f : Function) (v : Varnode) : String :=
  if Assigned (programOps f) v.location then declaredCtype f.types v else unsignedCtype v.size

inductive Value where
  | literal (n : ℕ)
  | word (bytes n : ℕ)
  | pointer (pointee : String) (n : ℕ)

def evalOperand (f : Function) (σ : State) (v : Varnode) : Option Value :=
  if v.space = .constant then some (.literal v.offset.toNat)
  else
    match readCtype (variableCtype f v) with
    | some (.word bytes) => some (.word bytes (σ.cells v.location))
    | some (.pointer pointee) => some (.pointer pointee (σ.cells v.location))
    | none => none

inductive Operator where
  | add
  | sub
  deriving DecidableEq

namespace Operator

def instruction (o : Operator) (dest lhs rhs : Varnode) : Instruction :=
  match o with
  | .add => .intAdd dest lhs rhs
  | .sub => .intSub dest lhs rhs

def apply (o : Operator) (a b : ℤ) : ℤ :=
  match o with
  | .add => a + b
  | .sub => a - b

end Operator

/-- A pointer moved by a number of pointees. -/
def moved (o : Operator) (pointee : String) (a n : ℕ) : Option ℤ :=
  (ctypeBytes pointee).map fun bytes => o.apply a (n * bytes) % 2 ^ 64

/-- The value of `lhs + rhs` or `lhs - rhs`, if C gives it one. -/
def evalBinary (o : Operator) : Value → Value → Option ℤ
  | .literal a, .literal b => some (o.apply a b)
  | .literal a, .word bytes b => some (o.apply a b % 2 ^ (8 * bytes))
  | .word bytes a, .literal b => some (o.apply a b % 2 ^ (8 * bytes))
  | .word bytes a, .word bytes' b => some (o.apply a b % 2 ^ (8 * max bytes bytes'))
  | .pointer pointee a, .literal b => moved o pointee a b
  | .pointer pointee a, .word _ b => moved o pointee a b
  | .literal a, .pointer pointee b => if o = .add then moved o pointee b a else none
  | .word _ a, .pointer pointee b => if o = .add then moved o pointee b a else none
  | .pointer pointee a, .pointer pointee' b =>
    if o = .sub ∧ pointee = pointee' then
      match ctypeBytes pointee with
      | some bytes => if (bytes : ℤ) ∣ a - b then some ((a - b : ℤ) / bytes) else none
      | none => none
    else none

/-- The value that the printed assignment leaves in the variable of `dest`. -/
def evalAssignment (f : Function) (σ : State) (o : Operator) (dest lhs rhs : Varnode) :
    Option ℤ := do
  if dest.space = .constant then none
  let value ← evalBinary o (← evalOperand f σ lhs) (← evalOperand f σ rhs)
  let bytes ← ctypeBytes (variableCtype f dest)
  return value % 2 ^ (8 * bytes)

/-- The printed variable of the varnode is declared as a pointer. -/
def IsPointer (ops : List Instruction) (v : Varnode) : Prop :=
  Assigned ops v.location ∧ v.location ∈ pointers ops

/-- Counting in pointees instead of bytes makes no difference: `x` is moved over by `k` bytes
each, the result is taken to `d` bytes, and `s` bytes are meant. -/
def Unscaled (s d k : ℕ) (x : Varnode) : Prop :=
  if x.space = .constant then
    if d = s then (2 ^ (8 * s) : ℤ) ∣ x.offset.toNat * k - x.offset.toNat
    else (2 ^ (8 * s) : ℤ) ∣ x.offset.toNat ∧ (2 ^ (8 * d) : ℤ) ∣ x.offset.toNat * k
  else d = s ∧ k = 1

/-- When the emitted arithmetic on values of `s` bytes, assigned to a variable of `d` bytes, means
that of the operation. -/
inductive Faithful (ops : List Instruction) (s d : ℕ) : Operator → Varnode → Varnode → Prop
  | words {o lhs rhs} : ¬ IsPointer ops lhs → ¬ IsPointer ops rhs →
      lhs.space ≠ .constant ∨ rhs.space ≠ .constant → Faithful ops s d o lhs rhs
  | literals {o lhs rhs} : lhs.space = .constant → rhs.space = .constant →
      o.apply lhs.offset.toNat rhs.offset.toNat % 2 ^ (8 * d) =
        o.apply lhs.offset.toNat rhs.offset.toNat % 2 ^ (8 * s) → Faithful ops s d o lhs rhs
  | offset {o lhs rhs k} : IsPointer ops lhs → ¬ IsPointer ops rhs →
      Pointee ops lhs.location k → Unscaled s d k rhs → Faithful ops s d o lhs rhs
  | base {lhs rhs k} : ¬ IsPointer ops lhs → IsPointer ops rhs →
      Pointee ops rhs.location k → Unscaled s d k lhs → Faithful ops s d .add lhs rhs
  | same {lhs rhs} : IsPointer ops lhs → lhs.location = rhs.location →
      Faithful ops s d .sub lhs rhs
  | difference {lhs rhs} : IsPointer ops lhs → IsPointer ops rhs → Pointee ops lhs.location 1 →
      Pointee ops rhs.location 1 → d = s → Faithful ops s d .sub lhs rhs

section Integers

variable {s d : ℕ}

def Widths (s d : ℕ) : Prop := s = 4 ∧ d = 4 ∨ s = 4 ∧ d = 8 ∨ s = 8 ∧ d = 8

/-- Adding `e` where `c` is meant, to every value of `s` bytes. -/
theorem forall_add_iff (h : Widths s d) (e c : ℤ) :
    (∀ p : ℕ, p < 2 ^ (8 * s) → (p + e) % 2 ^ 64 % 2 ^ (8 * d) = (p + c) % 2 ^ (8 * s)) ↔
      if d = s then (2 ^ (8 * s) : ℤ) ∣ e - c else (2 ^ (8 * s) : ℤ) ∣ c ∧ (2 ^ (8 * d) : ℤ) ∣ e := by
  rcases h with ⟨rfl, rfl⟩ | ⟨rfl, rfl⟩ | ⟨rfl, rfl⟩
  · norm_num
    constructor
    · intro h
      have h0 := h 0 (by omega)
      omega
    · intro h p hp
      omega
  · norm_num
    constructor
    · intro h
      -- the greatest value overflows the four bytes unless nothing is added
      have h0 := h 0 (by omega)
      have h1 := h 4294967295 (by omega)
      omega
    · rintro ⟨hc, he⟩ p hp
      omega
  · norm_num
    constructor
    · intro h
      have h0 := h 0 (by omega)
      omega
    · intro h p hp
      omega

theorem forall_apply_literal_iff (h : Widths s d) (o : Operator) (c k : ℤ) :
    (∀ p : ℕ, p < 2 ^ (8 * s) →
      o.apply p (c * k) % 2 ^ 64 % 2 ^ (8 * d) = o.apply p c % 2 ^ (8 * s)) ↔
      if d = s then (2 ^ (8 * s) : ℤ) ∣ c * k - c
      else (2 ^ (8 * s) : ℤ) ∣ c ∧ (2 ^ (8 * d) : ℤ) ∣ c * k := by
  cases o with
  | add => exact forall_add_iff h (c * k) c
  | sub =>
    have hneg := forall_add_iff h (-(c * k)) (-c)
    rw [neg_sub_neg, dvd_sub_comm, dvd_neg, dvd_neg] at hneg
    simpa only [Operator.apply, sub_eq_add_neg] using hneg

theorem forall_apply_word_iff (h : Widths s d) (o : Operator) {k : ℕ} (hk : k ∈ [1, 2, 4, 8]) :
    (∀ p n : ℕ, p < 2 ^ (8 * s) → n < 2 ^ (8 * s) →
      o.apply p (n * k) % 2 ^ 64 % 2 ^ (8 * d) = o.apply p n % 2 ^ (8 * s)) ↔ d = s ∧ k = 1 := by
  constructor
  · intro hall
    have hone := (forall_apply_literal_iff h o 1 k).mp fun p hp =>
      hall p 1 hp (Nat.one_lt_two_pow (by rcases h with ⟨rfl, -⟩ | ⟨rfl, -⟩ | ⟨rfl, -⟩ <;> decide))
    simp only [List.mem_cons, List.not_mem_nil, or_false] at hk
    rcases h with ⟨rfl, rfl⟩ | ⟨rfl, rfl⟩ | ⟨rfl, rfl⟩
    · norm_num at hone ⊢
      omega
    · norm_num at hone
    · norm_num at hone ⊢
      omega
  · rintro ⟨rfl, rfl⟩ p n hp hn
    refine (forall_apply_literal_iff h o n (1 : ℕ)).mpr ?_ p hp
    simp

theorem forall_sub_iff (h : Widths s d) :
    (∀ a : ℕ, a < 2 ^ (8 * s) → ∀ b : ℕ, b < 2 ^ (8 * s) →
      (a - b : ℤ) % 2 ^ (8 * d) = (a - b : ℤ) % 2 ^ (8 * s)) ↔ d = s := by
  constructor
  · intro hall
    rcases h with ⟨rfl, rfl⟩ | ⟨rfl, rfl⟩ | ⟨rfl, rfl⟩
    · rfl
    · have hneg := hall 0 (by norm_num) 1 (by norm_num)
      norm_num at hneg
    · rfl
  · rintro rfl a _ b _
    rfl

end Integers

section Evaluation

variable {f : Function} {σ : State} {v : Varnode}

theorem readCtype_unsignedCtype (size : UInt8) :
    readCtype (unsignedCtype size) = some (.word (wordBytes size)) := by
  have hlast : (unsignedCtype size).toList.getLast? ≠ some '*' := by
    unfold unsignedCtype
    split <;> decide
  rw [readCtype, if_neg hlast, ctypeBytes_unsignedCtype]
  rfl

theorem readCtype_pointer (inner : DataType) :
    readCtype (formatType (.pointer inner)) = some (.pointer (formatType inner)) := by
  simp [readCtype, formatType]

theorem IsPointer.space_ne {ops : List Instruction} (h : IsPointer ops v) :
    v.space ≠ .constant := by
  obtain ⟨⟨op, -, dest, -, hspace, hl⟩, -⟩ := h
  have hsame : dest.space = v.space := congrArg Location.space hl
  rw [← hsame]
  rcases hspace with hspace | hspace <;> simp [hspace]

theorem evalOperand_literal (h : v.space = .constant) :
    evalOperand f σ v = some (.literal v.offset.toNat) := if_pos h

section Inferred

variable (hi : Inferred (programOps f) f.types)

include hi

theorem variableCtype_word (hv : ¬ IsPointer (programOps f) v) :
    variableCtype f v = unsignedCtype v.size := by
  unfold variableCtype
  split
  case isTrue hassigned =>
    have hnone : v.location ∉ f.types := by
      intro hmem
      refine hv ⟨hassigned, ?_⟩
      rw [← hi.typed_eq]
      exact hmem
    rw [declaredCtype, Finmap.lookup_eq_none.mpr hnone]
  case isFalse => rfl

theorem variableCtype_pointer (hv : IsPointer (programOps f) v) :
    ∃ inner, f.types.lookup v.location = some (.pointer inner) ∧
      variableCtype f v = formatType (.pointer inner) := by
  obtain ⟨hassigned, hmem⟩ := hv
  rw [← hi.typed_eq] at hmem
  obtain ⟨t, ht⟩ := mem_typed_iff.mp hmem
  obtain ⟨inner, rfl⟩ := hi.allPointers _ _ ht
  exact ⟨inner, ht, by rw [variableCtype, if_pos hassigned, declaredCtype, ht]⟩

theorem evalOperand_word (hspace : v.space ≠ .constant) (hv : ¬ IsPointer (programOps f) v) :
    evalOperand f σ v = some (.word (wordBytes v.size) (σ.cells v.location)) := by
  rw [evalOperand, if_neg hspace, variableCtype_word hi hv, readCtype_unsignedCtype]

theorem evalOperand_pointer (hv : IsPointer (programOps f) v) :
    ∃ pointee bytes, ctypeBytes pointee = some bytes ∧
      Pointee (programOps f) v.location bytes ∧
      ∀ σ, evalOperand f σ v = some (.pointer pointee (σ.cells v.location)) := by
  obtain ⟨inner, hinner, hct⟩ := variableCtype_pointer hi hv
  obtain ⟨bytes, hbytes⟩ := exists_pointee hi (Finmap.mem_iff.mpr ⟨_, hinner⟩)
  obtain ⟨inner', hinner', hsize⟩ := hbytes.pointsTo hi
  obtain rfl := DataType.pointer.inj (Option.some.inj (hinner.symm.trans hinner'))
  refine ⟨formatType inner, bytes, hsize, hbytes, ?_⟩
  intro σ
  rw [evalOperand, if_neg hv.space_ne, hct, readCtype_pointer]

theorem ctypeBytes_variable (hsize : v.size.toNat = 4 ∨ v.size.toNat = 8) :
    ∃ d, ctypeBytes (variableCtype f v) = some d ∧ Widths v.size.toNat d ∧
      (IsPointer (programOps f) v ∧ d = 8 ∨ ¬ IsPointer (programOps f) v ∧ d = v.size.toNat) := by
  by_cases hv : IsPointer (programOps f) v
  · obtain ⟨inner, -, hct⟩ := variableCtype_pointer hi hv
    refine ⟨8, ?_, ?_, Or.inl ⟨hv, rfl⟩⟩
    · rw [hct, formatType, ctypeBytes_pointer]
    · rcases hsize with h | h <;> simp [Widths, h]
  · have hword : wordBytes v.size = v.size.toNat :=
      wordBytes_of_mem (by rcases hsize with h | h <;> simp [h])
    refine ⟨v.size.toNat, ?_, ?_, Or.inr ⟨hv, rfl⟩⟩
    · rw [variableCtype_word hi hv, ctypeBytes_unsignedCtype, hword]
    · rcases hsize with h | h <;> simp [Widths, h]

end Inferred

theorem ctypeBytes_mem {ct : String} {bytes : ℕ} (h : ctypeBytes ct = some bytes) :
    bytes ∈ [1, 2, 4, 8] := by
  unfold ctypeBytes at h
  split_ifs at h <;> simp_all

theorem ctypeBytes_eq_one {ct : String} (h : ctypeBytes ct = some 1) : ct = "uint8_t" := by
  unfold ctypeBytes at h
  split_ifs at h <;> simp_all

theorem forall_cells_iff {l : Location} {P : ℕ → Prop} :
    (∀ σ : State, σ.Bounded → P (σ.cells l)) ↔ ∀ p < modulus l.size, P p := by
  constructor
  · intro h p hp
    have hσ := h { State.zero with cells := Function.update State.zero.cells l p } ?_
    · simpa using hσ
    · intro l'
      by_cases hl : l' = l
      · subst hl
        simpa using hp
      · simpa [hl] using State.bounded_zero l'
  · exact fun h σ hσ => h _ (hσ l)

theorem forall_cells₂_iff {l l' : Location} (hne : l ≠ l') {P : ℕ → ℕ → Prop} :
    (∀ σ : State, σ.Bounded → P (σ.cells l) (σ.cells l')) ↔
      ∀ p < modulus l.size, ∀ q < modulus l'.size, P p q := by
  constructor
  · intro h p hp q hq
    have hσ := h { State.zero with
      cells := Function.update (Function.update State.zero.cells l' q) l p } ?_
    · simpa [hne.symm] using hσ
    · intro m
      by_cases hm : m = l
      · subst hm
        simpa using hp
      · by_cases hm' : m = l'
        · subst hm'
          simpa [hm] using hq
        · simpa [hm, hm'] using State.bounded_zero m
  · exact fun h σ hσ => h _ (hσ l) _ (hσ l')

end Evaluation

end Decompiler.Output
