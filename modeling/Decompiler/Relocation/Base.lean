import Decompiler.Arm.Refinement
import Decompiler.Relocation.Passes
import Decompiler.X86.Refinement

/-! # The load address

Both architectures name a target by its distance. So the same bytes at another load address
decode to the same code at other addresses, and what the passes make of it differs in the
addresses only. The address `0`, which the structurer takes for a missing successor, may not
be one of them.
-/

namespace Decompiler

open Cfg

def BranchTarget.addresses : BranchTarget → List Address
  | .absolute address => [address]
  | .indirect => []

def Instruction.addresses : Instruction → List Address
  | .branch target | .cbranch _ target | .call target => target.addresses
  | _ => []

/-- The entry, the addresses of the instructions and those they name. -/
def Function.addresses (f : Function) : List Address :=
  f.entry :: (stream f).flatMap fun li => li.address :: li.ops.flatMap Instruction.addresses

/-- Moves an address by a distance and leaves `0` where it is. -/
def rebase (distance address : Address) : Address :=
  if address = 0 then 0 else if address + distance = 0 then distance else address + distance

section Rebase

variable {d a b : Address}

theorem rebase_zero : rebase d 0 = 0 := if_pos rfl

theorem rebase_eq_add (ha : a ≠ 0) (hd : a + d ≠ 0) : rebase d a = a + d := by
  rw [rebase, if_neg ha, if_neg hd]

theorem rebase_injective (d : Address) : Function.Injective (rebase d) := by
  intro a b hab
  unfold rebase at hab
  grind

end Rebase

section Congruence

variable {φ ψ : Address → Address}

theorem Instruction.relocate_congr {op : Instruction} (h : ∀ a ∈ op.addresses, φ a = ψ a) :
    op.relocate φ = op.relocate ψ := by
  cases op with
  | branch target | cbranch condition target | call target =>
    cases target with
    | absolute a =>
      simp only [relocate, BranchTarget.relocate, h a (List.mem_singleton.mpr rfl)]
    | indirect => rfl
  | _ => rfl

theorem relocate_congr {flat : List LiftedInstruction}
    (h : ∀ li ∈ flat, ∀ a ∈ li.address :: li.ops.flatMap Instruction.addresses, φ a = ψ a) :
    flat.map (LiftedInstruction.relocate φ) = flat.map (LiftedInstruction.relocate ψ) := by
  refine List.map_congr_left fun li hli => ?_
  have hops : li.ops.map (Instruction.relocate φ) = li.ops.map (Instruction.relocate ψ) :=
    List.map_congr_left fun op hop => Instruction.relocate_congr fun a ha =>
      h li hli a (List.mem_cons_of_mem _ (List.mem_flatMap.mpr ⟨op, hop, ha⟩))
  rw [LiftedInstruction.relocate, LiftedInstruction.relocate, h li hli _ List.mem_cons_self, hops]

end Congruence

/-- The address of an instruction enters its operations as the start of a distance only. -/
structure Backend.Relocatable {I : Type} (backend : Backend I) : Prop where
  disassembleOne : ∀ {bytes address result}, backend.disassembleOne bytes address = .ok result →
    ∀ address', backend.disassembleOne bytes address' = .ok { result with address := address' }
  lift : ∀ {i address length temps ops temps' d ops₁ temps₁},
    backend.lift i address length temps = .ok (ops, temps') →
    backend.lift i (address + d) length temps = .ok (ops₁, temps₁) →
    ops₁ = ops.map (Instruction.relocate (· + d)) ∧ temps₁ = temps'

section Backends

variable {pc d target target' : Address} {rel : Int32}

theorem X86.resolveRel_add {length : ℕ} (h : resolveRel pc length rel = .ok target)
    (h' : resolveRel (pc + d) length rel = .ok target') : target' = target + d := by
  rw [resolveRel_eq_ok h, resolveRel_eq_ok h', relTarget, relTarget]
  ac_rfl

theorem Arm.branchAddress_add (h : branchAddress pc rel = .ok target)
    (h' : branchAddress (pc + d) rel = .ok target') : target' = target + d := by
  rw [branchAddress_eq_ok h, branchAddress_eq_ok h', relTarget, relTarget]
  ac_rfl

theorem relocate_of_target {x y : Except Fault Address} {f : Address → List Instruction}
    {temps temps' temps₁ : TempAllocator} {ops ops₁ : List Instruction}
    (hxy : ∀ t t', x = .ok t → y = .ok t' → t' = t + d)
    (hf : ∀ t, f (t + d) = (f t).map (Instruction.relocate (· + d)))
    (h : (x >>= fun target => .ok (f target, temps)) = .ok (ops, temps'))
    (h' : (y >>= fun target => .ok (f target, temps)) = .ok (ops₁, temps₁)) :
    ops₁ = ops.map (Instruction.relocate (· + d)) ∧ temps₁ = temps' := by
  obtain ⟨t, hx, h⟩ := Fallible.bind_eq_ok.mp h
  obtain ⟨t', hy, h'⟩ := Fallible.bind_eq_ok.mp h'
  obtain ⟨rfl, rfl⟩ := Prod.mk.inj (Except.ok.inj h)
  obtain ⟨rfl, rfl⟩ := Prod.mk.inj (Except.ok.inj h')
  rw [hxy t t' hx hy]
  exact ⟨hf t, rfl⟩

theorem relocate_of_same {x : Except Fault (List Instruction × TempAllocator)}
    {temps' temps₁ : TempAllocator} {ops ops₁ : List Instruction}
    (hx : ∀ ops temps, x = .ok (ops, temps) → ops.map (Instruction.relocate (· + d)) = ops)
    (h : x = .ok (ops, temps')) (h' : x = .ok (ops₁, temps₁)) :
    ops₁ = ops.map (Instruction.relocate (· + d)) ∧ temps₁ = temps' := by
  obtain ⟨rfl, rfl⟩ := Prod.mk.inj (Except.ok.inj (h'.symm.trans h))
  exact ⟨(hx _ _ h).symm, rfl⟩

theorem X86.relocate_liftCmp (lhs : Reg32) (rhs : Varnode) (temps : TempAllocator)
    (ops : List Instruction) (temps' : TempAllocator)
    (h : liftCmp lhs rhs temps = .ok (ops, temps')) :
    ops.map (Instruction.relocate (· + d)) = ops := by
  obtain ⟨⟨diff, temps⟩, -, h⟩ := Fallible.bind_eq_ok.mp h
  obtain ⟨rfl, rfl⟩ := Prod.mk.inj (Except.ok.inj h)
  rfl

theorem X86.relocatable : backend.Relocatable where
  disassembleOne h address' := by
    obtain ⟨⟨i, length⟩, hdec, h⟩ := Fallible.bind_eq_ok.mp h
    obtain rfl := Except.ok.inj h
    exact Fallible.bind_eq_ok.mpr ⟨_, hdec, rfl⟩
  lift {i address length temps ops temps' d ops₁ temps₁} h h' := by
    have htarget : ∀ {rel : Int32} (t t' : Address), resolveRel address length rel = .ok t →
        resolveRel (address + d) length rel = .ok t' → t' = t + d := fun _ _ => resolveRel_add
    cases i with
    | jmp | je | call => exact relocate_of_target htarget (fun _ => rfl) h h'
    | jne rel =>
      obtain ⟨t, ht, h⟩ := Fallible.bind_eq_ok.mp h
      obtain ⟨t', ht', h'⟩ := Fallible.bind_eq_ok.mp h'
      obtain rfl := htarget t t' ht ht'
      obtain ⟨⟨notZf, temps₂⟩, hfresh, h⟩ := Fallible.bind_eq_ok.mp h
      obtain ⟨⟨notZf', temps₂'⟩, hfresh', h'⟩ := Fallible.bind_eq_ok.mp h'
      obtain ⟨rfl, rfl⟩ := Prod.mk.inj (Except.ok.inj (hfresh.symm.trans hfresh'))
      obtain ⟨rfl, rfl⟩ := Prod.mk.inj (Except.ok.inj h)
      obtain ⟨rfl, rfl⟩ := Prod.mk.inj (Except.ok.inj h')
      exact ⟨rfl, rfl⟩
    | cmpRegReg | cmpRegImm => exact relocate_of_same (relocate_liftCmp _ _ _) h h'
    | movRegReg | movRegImm | addRegReg | addRegImm | ret =>
      obtain ⟨rfl, rfl⟩ := Prod.mk.inj (Except.ok.inj h)
      obtain ⟨rfl, rfl⟩ := Prod.mk.inj (Except.ok.inj h')
      exact ⟨rfl, rfl⟩

theorem Arm.relocatable : backend.Relocatable where
  disassembleOne h address' := by
    obtain ⟨⟨i, length⟩, hdec, h⟩ := Fallible.bind_eq_ok.mp h
    obtain rfl := Except.ok.inj h
    exact Fallible.bind_eq_ok.mpr ⟨_, hdec, rfl⟩
  lift {i address length temps ops temps' d ops₁ temps₁} h h' := by
    cases i with
    | b | bl | beq | bne =>
      exact relocate_of_target (fun _ _ => branchAddress_add) (fun _ => rfl) h h'
    | movRegImm | addRegReg | addRegImm | cmpRegReg | cmpRegImm | ret =>
      obtain ⟨rfl, rfl⟩ := Prod.mk.inj (Except.ok.inj h)
      obtain ⟨rfl, rfl⟩ := Prod.mk.inj (Except.ok.inj h')
      exact ⟨rfl, rfl⟩

end Backends

section Loop

variable {I : Type} {backend : Backend I} (hmove : backend.Relocatable) {bytes : List UInt8}
  {base d : Address}

include hmove

theorem DecodedAt.relocate {offset length length' : ℕ} {temps temps' temps'' : TempAllocator}
    {li li' : LiftedInstruction} (h : DecodedAt backend bytes base offset temps li length temps')
    (h' : DecodedAt backend bytes (base + d) offset temps li' length' temps'') :
    li' = li.relocate (· + d) ∧ length' = length ∧ temps'' = temps' := by
  obtain ⟨-, haddr, ⟨result, hres, rfl, hlift⟩, -⟩ := h
  obtain ⟨-, haddr', ⟨result', hres', rfl, hlift'⟩, -⟩ := h'
  have hsum : li'.address = li.address + d := by
    have h₁ := addU64_eq_ok_iff.mp haddr
    have h₂ := addU64_eq_ok_iff.mp haddr'
    have hlt := li'.address.toNat_lt
    rw [UInt64.toNat_add] at h₂
    rw [← UInt64.toNat_inj, UInt64.toNat_add, h₁, h₂]
    omega
  obtain rfl := Except.ok.inj (hres'.symm.trans (hmove.disassembleOne hres li'.address))
  rw [hsum] at hlift'
  obtain ⟨hops, htemps⟩ := hmove.lift hlift hlift'
  refine ⟨?_, rfl, htemps⟩
  rw [LiftedInstruction.relocate, ← hsum, ← hops]

theorem DecodedAt.not_stopped {offset length : ℕ} {temps temps' : TempAllocator}
    {li : LiftedInstruction} (h : DecodedAt backend bytes base offset temps li length temps') :
    ¬ (bytes.length ≤ offset ∨ ∃ address e, addU64 (base + d) offset = .ok address ∧
      backend.disassembleOne (bytes.drop offset) address = .error e) := by
  rintro (hend | ⟨address, e, -, herror⟩)
  · exact absurd h.offset_lt (Nat.not_lt_of_le hend)
  · obtain ⟨result, hres, -⟩ := h.decoded
    rw [hmove.disassembleOne hres address] at herror
    cases herror

/-- The decode loop records the same code at the other addresses. -/
theorem Decodes.relocate {offset : ℕ} {temps : TempAllocator} {lis lis' : List LiftedInstruction}
    (h : Decodes backend bytes base offset temps lis)
    (h' : Decodes backend bytes (base + d) offset temps lis') :
    lis' = lis.map (LiftedInstruction.relocate (· + d)) := by
  induction h generalizing lis' with
  | stop stopped =>
    have hback : base + d + -d = base := by grind
    cases h' with
    | stop _ => rfl
    | last hdec _ | next hdec _ _ =>
      exact absurd (by rwa [hback]) (hdec.not_stopped hmove (d := -d))
  | last hdec hret =>
    cases h' with
    | stop stopped => exact absurd stopped (hdec.not_stopped hmove)
    | last hdec' _ => rw [(hdec.relocate hmove hdec').1, List.map_singleton]
    | next hdec' hno _ =>
      obtain ⟨rfl, -, -⟩ := hdec.relocate hmove hdec'
      exact absurd (List.mem_map_of_mem (f := Instruction.relocate (· + d)) hret) hno
  | next hdec hno _ ih =>
    cases h' with
    | stop stopped => exact absurd stopped (hdec.not_stopped hmove)
    | last hdec' hret =>
      obtain ⟨rfl, -, -⟩ := hdec.relocate hmove hdec'
      obtain ⟨op, hop, heq⟩ := List.mem_map.mp hret
      cases op with
      | ret => exact absurd hop hno
      | _ => cases heq
    | next hdec' _ hrest' =>
      obtain ⟨rfl, rfl, rfl⟩ := hdec.relocate hmove hdec'
      rw [ih hrest', List.map_cons]

end Loop

theorem Arch.exists_decodes {arch : Arch} {name : String} {bytes : List UInt8}
    {base d : Address} {f f' : Function} (h : arch.processFunction name bytes base = .ok f)
    (h' : arch.processFunction name bytes (base + d) = .ok f') :
    ∃ flat, f = .ofStream name base flat ∧ IsLifted base flat ∧
      f' = .ofStream name (base + d) (flat.map (LiftedInstruction.relocate (· + d))) ∧
      IsLifted (base + d) (flat.map (LiftedInstruction.relocate (· + d))) := by
  cases arch with
  | x86 =>
    obtain ⟨flat, rfl, hdec⟩ := processFunction_decodes h
    obtain ⟨flat', rfl, hdec'⟩ := processFunction_decodes h'
    obtain rfl := hdec.relocate X86.relocatable hdec'
    exact ⟨flat, rfl, hdec.isLifted X86.lawful, rfl, hdec'.isLifted X86.lawful⟩
  | arm =>
    obtain ⟨flat, rfl, hdec⟩ := processFunction_decodes h
    obtain ⟨flat', rfl, hdec'⟩ := processFunction_decodes h'
    obtain rfl := hdec.relocate Arm.relocatable hdec'
    exact ⟨flat, rfl, hdec.isLifted Arm.lawful, rfl, hdec'.isLifted Arm.lawful⟩

/-- The same bytes at another load address: unless an address overflows there, what is
decompiled differs in the addresses only. -/
theorem Arch.decompile_rebase (arch : Arch) (name : String) (bytes : List UInt8)
    (base d : Address) {f : Function} (hf : arch.processFunction name bytes base = .ok f)
    (hzero : ∀ a ∈ f.addresses, a ≠ 0 ∧ a + d ≠ 0) :
    arch.processFunction name bytes (base + d) = .error .addressOverflow ∨
      ∃ f' out text out' text', arch.processFunction name bytes (base + d) = .ok f' ∧
        runPhase2 f = .ok (out, text) ∧ runPhase2 f' = .ok (out', text') ∧
        IsRelocation (rebase d) out out' := by
  rcases arch.overflows_or_ok name bytes (base + d) with hover | ⟨f', hf'⟩
  · exact .inl hover
  right
  obtain ⟨flat, rfl, hflat, rfl, hflat'⟩ := exists_decodes hf hf'
  have hrebase : ∀ a ∈ (Function.ofStream name base flat).addresses, rebase d a = a + d :=
    fun a ha => rebase_eq_add (hzero a ha).1 (hzero a ha).2
  have hentry : rebase d base = base + d := hrebase _ List.mem_cons_self
  have hcode : flat.map (LiftedInstruction.relocate (rebase d)) =
      flat.map (LiftedInstruction.relocate (· + d)) := by
    refine relocate_congr fun li hli a ha => hrebase a (List.mem_cons_of_mem _ ?_)
    rw [stream_ofStream]
    exact List.mem_flatMap.mpr ⟨li, hli, ha⟩
  have hsorted : ((flat.map LiftedInstruction.address).map (rebase d)).Pairwise (· < ·) := by
    have hsorted := hflat'.sorted
    rw [← hcode, List.map_map] at hsorted
    rwa [List.map_map]
  obtain ⟨out, text, out', text', hrun, hrun', hout⟩ :=
    @runPhase2_relocate _ (rebase_injective d) rebase_zero name base flat hflat hsorted
  rw [hentry, hcode] at hrun'
  exact ⟨_, out, text, out', text', hf', hrun, hrun', hout⟩

/-- `je` over `jmp 0`, `je` back to the first instruction: the walker has visited the missing
successor `0` when it comes to the jump, and prints a `goto`. Elsewhere it drops the jump. -/
example : ∃ p, (Arch.x86.processFunction "input"
      [0x74, 0x05, 0xE9, 0xF9, 0xEF, 0xFF, 0xFF, 0x74, 0xF7] 0x1000 >>= runPhase2) = .ok p ∧
    ∃ p', (Arch.x86.processFunction "input"
      [0x74, 0x05, 0xE9, 0xF9, 0xEF, 0xFF, 0xFF, 0x74, 0xF7] 0x401000 >>= runPhase2) = .ok p' ∧
    p.1.ast.map (·.lines.length) ≠ p'.1.ast.map (·.lines.length) := by
  decide +kernel

/-- `cmp eax, 5; jne` back to it, `ret` -/
def waitLoop : List UInt8 := [0x3D, 0x05, 0x00, 0x00, 0x00, 0x75, 0xF9, 0xC3]

theorem Arch.decompile_rebase_waitLoop : ∃ f f' out text out' text',
    Arch.x86.processFunction "input" waitLoop 0x1000 = .ok f ∧
    Arch.x86.processFunction "input" waitLoop 0x401000 = .ok f' ∧
    runPhase2 f = .ok (out, text) ∧ runPhase2 f' = .ok (out', text') ∧
    IsRelocation (rebase 0x400000) out out' := by
  have hrun : ∃ f, Arch.x86.processFunction "input" waitLoop 0x1000 = .ok f ∧
      f.addresses.all fun a => a ≠ 0 ∧ a + 0x400000 ≠ 0 := by
    decide +kernel
  have hmoved : ∃ f', Arch.x86.processFunction "input" waitLoop 0x401000 = .ok f' ∧ True := by
    decide +kernel
  obtain ⟨f, hf, hzero⟩ := hrun
  obtain ⟨f₁, hf₁, -⟩ := hmoved
  obtain hover | ⟨f', out, text, out', text', hf', hmove⟩ :=
    Arch.x86.decompile_rebase "input" waitLoop 0x1000 0x400000 hf
      fun a ha => of_decide_eq_true (List.all_eq_true.mp hzero a ha)
  · cases hover.symm.trans hf₁
  · exact ⟨f, f', out, text, out', text', hf, hf', hmove⟩

end Decompiler
