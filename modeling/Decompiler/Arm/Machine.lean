import Decompiler.Arm.Encoding
import Decompiler.Arm.Lifter
import Decompiler.Ir.Semantics
import Decompiler.Library.Adjacent

/-! # The mock ARM machine

The meaning of the encoded words on the registers and on what the most recent comparison
recorded. What a callee does to these is a parameter.
-/

namespace Decompiler.Arm

structure Cpu where
  regs : Reg64 → UInt64
  /-- whether the operands of the most recent comparison were equal, if there was one -/
  equal : Option Bool

def Cpu.set (c : Cpu) (r : Reg64) (v : UInt64) : Cpu :=
  { c with regs := Function.update c.regs r v }

def relTarget (pc : Address) (rel : Int32) : Address := pc + rel.toInt64.toUInt64

/-- The effect of an instruction at an address, and where it goes. A conditional branch has
no meaning before the first comparison. -/
def ArmInstruction.exec (callee : Address → Cpu → Cpu) (pc : Address) (c : Cpu) :
    ArmInstruction → Option (Cpu × Control)
  | .movRegImm dst imm => some (c.set dst imm.toUInt64, .fall)
  | .addRegReg dst src1 src2 => some (c.set dst (c.regs src1 + c.regs src2), .fall)
  | .addRegImm dst src imm => some (c.set dst (c.regs src + imm.toUInt64), .fall)
  | .cmpRegReg lhs rhs => some ({ c with equal := some (c.regs lhs = c.regs rhs) }, .fall)
  | .cmpRegImm lhs imm => some ({ c with equal := some (c.regs lhs = imm.toUInt64) }, .fall)
  | .b rel => some (c, .jump (.absolute (relTarget pc rel)))
  | .bl rel => some (callee (relTarget pc rel) c, .fall)
  | .beq rel => c.equal.map fun e => (c, if e then .jump (.absolute (relTarget pc rel)) else .fall)
  | .bne rel => c.equal.map fun e => (c, if e then .fall else .jump (.absolute (relTarget pc rel)))
  | .ret => some (c, .stop)

def wordAt (bytes : List UInt8) (offset : ℕ) : Option UInt32 :=
  match bytes.drop offset with
  | b₀ :: b₁ :: b₂ :: b₃ :: _ => some (fromLeBytes b₀ b₁ b₂ b₃)
  | _ => none

/-- The word at an address encodes an instruction. -/
def Fetches (bytes : List UInt8) (base pc : Address) (i : ArmInstruction) : Prop :=
  ∃ k word, pc.toNat = base.toNat + 4 * k ∧ wordAt bytes (4 * k) = some word ∧ Encodes word i

inductive Goes (pc : Address) : Control → Option Address → Prop
  | fall {next : Address} (address : addU64 pc 4 = .ok next) : Goes pc .fall (some next)
  | jump (target : Address) : Goes pc (.jump (.absolute target)) (some target)
  | stop : Goes pc .stop none

inductive CpuStep (callee : Address → Cpu → Cpu) (bytes : List UInt8) (base : Address) :
    Option Address × Cpu → Option Address × Cpu → Prop
  | step {pc : Address} {c c' : Cpu} {i : ArmInstruction} {ctl : Control} {next : Option Address}
    (fetch : Fetches bytes base pc i) (exec : i.exec callee pc c = some (c', ctl))
    (goes : Goes pc ctl next) : CpuStep callee bytes base (some pc, c) (next, c')

theorem Goes.unique {pc : Address} {ctl : Control} {p q : Option Address} (hp : Goes pc ctl p)
    (hq : Goes pc ctl q) : p = q := by
  cases hp with
  | fall h =>
    cases hq with
    | fall h' => exact congrArg some (Except.ok.inj (h.symm.trans h'))
  | jump target =>
    cases hq
    rfl
  | stop =>
    cases hq
    rfl

theorem Fetches.unique {bytes : List UInt8} {base pc : Address} {i j : ArmInstruction}
    (hi : Fetches bytes base pc i) (hj : Fetches bytes base pc j) : i = j := by
  obtain ⟨k, w, hk, hw, hi⟩ := hi
  obtain ⟨k', w', hk', hw', hj⟩ := hj
  obtain rfl : k = k' := by omega
  obtain rfl := Option.some.inj (hw.symm.trans hw')
  exact hi.unique hj

theorem decodeOne_eq_ok {bytes : List UInt8} {offset n : ℕ} {i : ArmInstruction}
    (h : decodeOne (bytes.drop offset) = .ok (i, n)) :
    ∃ word, wordAt bytes offset = some word ∧ Encodes word i ∧ n = 4 := by
  unfold decodeOne at h
  split at h
  case isTrue => cases h
  case isFalse hlen =>
    unfold wordAt
    match hb : bytes.drop offset with
    | b₀ :: b₁ :: b₂ :: b₃ :: rest =>
      simp only [hb] at h
      exact ⟨_, rfl, decodeWord_eq_ok_iff.mp h⟩
    | [] | [_] | [_, _] | [_, _, _] => simp [hb] at hlen

/-- The operations of consecutive words, each decoded and lifted at its own address. -/
def LiftsWords (bytes : List UInt8) (base : Address) (lis : List LiftedInstruction) : Prop :=
  ∀ k li, lis[k]? = some li → li.address.toNat = base.toNat + 4 * k ∧
    ∃ result temps temps', disassembleOne (bytes.drop (4 * k)) li.address = .ok result ∧
      lift result.instruction li.address result.length temps = .ok (li.ops, temps')

namespace LiftsWords

variable {bytes : List UInt8} {base : Address} {lis : List LiftedInstruction}
  (h : LiftsWords bytes base lis)

include h

theorem fetches {li : LiftedInstruction} (hli : li ∈ lis) : ∃ i length temps temps',
    Fetches bytes base li.address i ∧ lift i li.address length temps = .ok (li.ops, temps') := by
  obtain ⟨k, hk⟩ := List.getElem?_of_mem hli
  obtain ⟨haddr, result, temps, temps', hres, hlift⟩ := h k li hk
  obtain ⟨⟨i, n⟩, hdec, hpure⟩ := Fallible.bind_eq_ok.mp hres
  obtain ⟨word, hword, hencodes, -⟩ := decodeOne_eq_ok hdec
  obtain rfl := Except.ok.inj hpure
  exact ⟨i, n, temps, temps', ⟨k, word, haddr, hword, hencodes⟩, hlift⟩

theorem address_inj {li li' : LiftedInstruction} (hli : li ∈ lis) (hli' : li' ∈ lis)
    (haddr : li.address = li'.address) : li = li' := by
  obtain ⟨k, hk⟩ := List.getElem?_of_mem hli
  obtain ⟨k', hk'⟩ := List.getElem?_of_mem hli'
  have heq := (h k li hk).1
  rw [haddr, (h k' li' hk').1] at heq
  obtain rfl : k = k' := by omega
  exact Option.some.inj (hk.symm.trans hk')

theorem follows_iff {li next : LiftedInstruction} (hli : li ∈ lis) (hnext : next ∈ lis) :
    Follows lis li next ↔ addU64 li.address 4 = .ok next.address := by
  rw [addU64_eq_ok_iff]
  constructor
  · intro hfollows
    obtain ⟨k, hk, hk'⟩ := hfollows.exists_getElem?
    rw [(h k li hk).1, (h (k + 1) next hk').1]
    rfl
  · intro haddr
    obtain ⟨k, hk⟩ := List.getElem?_of_mem hli
    obtain ⟨j, hj⟩ := List.getElem?_of_mem hnext
    rw [(h k li hk).1, (h j next hj).1] at haddr
    obtain rfl : j = k + 1 := by omega
    exact Follows.getElem? hk hj

end LiftsWords

end Decompiler.Arm
