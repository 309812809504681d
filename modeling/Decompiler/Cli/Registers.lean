import Decompiler.Cfg.Lifted
import Decompiler.Cli.Names

/-! # The registers that a decoded stream uses

A lifted instruction uses the registers of its architecture and the temporaries that it has
assigned itself.
-/

namespace Decompiler

open Output

def Backend.UsesRegisters {I : Type} (backend : Backend I) (regs : List Varnode) : Prop :=
  ∀ {i address length temps ops temps'},
    backend.lift i address length temps = .ok (ops, temps') → ∀ op ∈ ops, Uses regs op

section Uses

variable {regs : List Varnode} {dest lhs rhs : Varnode}

theorem uses_copy (hd : Known regs dest) (hs : rhs.space = .constant ∨ Known regs rhs) :
    Uses regs (.copy dest rhs) where
  dest _ hv := Option.some.inj hv ▸ hd
  operand _ hv := List.mem_singleton.mp hv ▸ hs

theorem uses_binary {op : Instruction} (hdest : op.opDest = some dest)
    (hoperands : op.operands = [lhs, rhs]) (hd : Known regs dest)
    (hl : lhs.space = .constant ∨ Known regs lhs) (hr : rhs.space = .constant ∨ Known regs rhs) :
    Uses regs op where
  dest _ hv := Option.some.inj (hdest.symm.trans hv) ▸ hd
  operand v hv := by
    rw [hoperands] at hv
    rcases List.mem_cons.mp hv with rfl | hv
    · exact hl
    · exact List.mem_singleton.mp hv ▸ hr

theorem uses_cbranch (hc : Known regs lhs) (target : BranchTarget) :
    Uses regs (.cbranch lhs target) where
  dest _ hv := by cases hv
  operand _ hv := .inr (List.mem_singleton.mp hv ▸ hc)

theorem uses_of_none {op : Instruction} (hdest : op.opDest = none) (hoperands : op.operands = []) :
    Uses regs op where
  dest v hv := by
    rw [hdest] at hv
    cases hv
  operand v hv := by
    rw [hoperands] at hv
    cases hv

variable {ops : List Instruction} {temps temps' : TempAllocator}

theorem uses_of_return {op : Instruction}
    (h : (.ok ([op], temps) : Except Fault _) = .ok (ops, temps')) (hop : Uses regs op) :
    ∀ o ∈ ops, Uses regs o :=
  holds_of_return (P := fun ops => ∀ o ∈ ops, Uses regs o) h (List.forall_mem_singleton.mpr hop)

theorem uses_of_target {f : Address → Instruction} {x : Except Fault Address}
    (h : (x >>= fun target => .ok ([f target], temps)) = .ok (ops, temps'))
    (hop : ∀ target, Uses regs (f target)) : ∀ o ∈ ops, Uses regs o :=
  holds_of_target (P := fun ops => ∀ o ∈ ops, Uses regs o) h fun target =>
    List.forall_mem_singleton.mpr (hop target)

theorem uses_pair {first second : Instruction} (hfirst : Uses regs first)
    (hsecond : Uses regs second) : ∀ o ∈ [first, second], Uses regs o :=
  List.forall_mem_cons.mpr ⟨hfirst, List.forall_mem_singleton.mpr hsecond⟩

end Uses

theorem known_fresh {temps temps' : TempAllocator} {size : UInt8} {v : Varnode}
    {regs : List Varnode} (h : temps.fresh size = .ok (v, temps')) : Known regs v := by
  obtain ⟨rfl, -, -⟩ := fresh_eq_ok h
  exact .inr rfl

namespace X86

def registers : List Varnode :=
  [Reg32.eax, .ecx, .edx, .ebx, .esp, .ebp, .esi, .edi].map regVarnode ++ [zfVarnode]

theorem registerFile : RegisterFile registers where
  register := by decide
  name := by
    simp [registers, regVarnode, zfVarnode, Varnode.register, Varnode.named, Reg32.name]
  nodup_names := by decide
  nodup_locations := by decide

theorem known_reg (r : Reg32) : Known registers (regVarnode r) := by
  refine .inl (List.mem_append_left _ (List.mem_map_of_mem ?_))
  cases r <;> simp

theorem known_zf : Known registers zfVarnode := .inl (by simp [registers])

theorem uses_liftCmp {lhs : Reg32} {rhs : Varnode} {temps temps' : TempAllocator}
    {ops : List Instruction} (hrhs : rhs.space = .constant ∨ Known registers rhs)
    (h : liftCmp lhs rhs temps = .ok (ops, temps')) : ∀ op ∈ ops, Uses registers op := by
  obtain ⟨⟨diff, t⟩, hfresh, h⟩ := Fallible.bind_eq_ok.mp h
  obtain ⟨rfl, rfl⟩ := Prod.mk.inj (Except.ok.inj h)
  have hdiff : Known registers diff := known_fresh hfresh
  exact uses_pair (uses_binary rfl rfl hdiff (.inr (known_reg lhs)) hrhs)
    (uses_binary rfl rfl known_zf (.inr hdiff) (.inl rfl))

theorem usesRegisters : backend.UsesRegisters registers := by
  intro i address length temps ops temps' h
  change lift i address length temps = .ok (ops, temps') at h
  cases i with
  | movRegReg dst src => exact uses_of_return h (uses_copy (known_reg dst) (.inr (known_reg src)))
  | movRegImm dst imm => exact uses_of_return h (uses_copy (known_reg dst) (.inl rfl))
  | addRegReg dst src =>
    exact uses_of_return h
      (uses_binary rfl rfl (known_reg dst) (.inr (known_reg dst)) (.inr (known_reg src)))
  | addRegImm dst imm =>
    exact uses_of_return h
      (uses_binary rfl rfl (known_reg dst) (.inr (known_reg dst)) (.inl rfl))
  | cmpRegReg lhs rhs => exact uses_liftCmp (.inr (known_reg rhs)) h
  | cmpRegImm lhs imm => exact uses_liftCmp (.inl rfl) h
  | jmp rel | call rel => exact uses_of_target h fun _ => uses_of_none rfl rfl
  | je rel => exact uses_of_target h fun _ => uses_cbranch known_zf _
  | jne rel =>
    obtain ⟨target, -, h⟩ := Fallible.bind_eq_ok.mp h
    obtain ⟨⟨notZf, t⟩, hfresh, h⟩ := Fallible.bind_eq_ok.mp h
    obtain ⟨rfl, rfl⟩ := Prod.mk.inj (Except.ok.inj h)
    have hnotZf : Known registers notZf := known_fresh hfresh
    exact uses_pair (uses_binary rfl rfl hnotZf (.inr known_zf) (.inl rfl)) (uses_cbranch hnotZf _)
  | ret => exact uses_of_return h (uses_of_none rfl rfl)

end X86

namespace Arm

def registers : List Varnode := (List.finRange 32).map (fun n => reg ⟨n⟩) ++ [flags]

theorem registerFile : RegisterFile registers where
  register := by decide
  name := by
    intro v hv
    have hnames : ∀ n : Fin 32, (Reg64.display ⟨n⟩).toList.head? ≠ some 't' := by decide
    rcases List.mem_append.mp hv with hv | hv
    · obtain ⟨n, -, rfl⟩ := List.mem_map.mp hv
      exact ⟨_, rfl, hnames n⟩
    · obtain rfl := List.mem_singleton.mp hv
      exact ⟨_, rfl, by decide⟩
  nodup_names := by decide +kernel
  nodup_locations := by decide +kernel

theorem known_reg (r : Reg64) : Known registers (reg r) :=
  .inl (List.mem_append_left _ (List.mem_map_of_mem (List.mem_finRange r.number)))

theorem known_flags : Known registers flags := .inl (by simp [registers])

theorem usesRegisters : backend.UsesRegisters registers := by
  intro i address length temps ops temps' h
  change lift i address length temps = .ok (ops, temps') at h
  cases i with
  | movRegImm dst val => exact uses_of_return h (uses_copy (known_reg dst) (.inl rfl))
  | addRegReg dst src1 src2 =>
    exact uses_of_return h
      (uses_binary rfl rfl (known_reg dst) (.inr (known_reg src1)) (.inr (known_reg src2)))
  | addRegImm dst src val =>
    exact uses_of_return h
      (uses_binary rfl rfl (known_reg dst) (.inr (known_reg src)) (.inl rfl))
  | cmpRegReg lhs rhs =>
    exact uses_of_return h
      (uses_binary rfl rfl known_flags (.inr (known_reg lhs)) (.inr (known_reg rhs)))
  | cmpRegImm lhs val =>
    exact uses_of_return h (uses_binary rfl rfl known_flags (.inr (known_reg lhs)) (.inl rfl))
  | b rel | bl rel => exact uses_of_target h fun _ => uses_of_none rfl rfl
  | beq rel | bne rel => exact uses_of_target h fun _ => uses_cbranch known_flags _
  | ret => exact uses_of_return h (uses_of_none rfl rfl)

end Arm

theorem Decodes.wellNamed {I : Type} {backend : Backend I} {bytes : List UInt8} {base : Address}
    {regs : List Varnode} (hscopes : backend.Scopes) (huses : backend.UsesRegisters regs)
    {offset : ℕ} {temps : TempAllocator} {lis : List LiftedInstruction}
    (h : Decodes backend bytes base offset temps lis) :
    WellNamed regs (lis.flatMap LiftedInstruction.ops) := by
  obtain ⟨-, hnodup, hreads⟩ := h.scoped hscopes
  refine ⟨?_, hnodup, ?_⟩
  · intro op hop
    obtain ⟨li, hli, hop⟩ := List.mem_flatMap.mp hop
    obtain ⟨_, _, _, _, -, hdec⟩ := h.decodedAt hli
    obtain ⟨result, -, -, hlift⟩ := hdec.decoded
    exact huses hlift op hop
  · intro op hop v hv hspace
    obtain ⟨li, hli, hop⟩ := List.mem_flatMap.mp hop
    obtain ⟨before, behind, hsplit⟩ := List.append_of_mem hop
    obtain ⟨earlier, hearlier, dest, hdest, hloc⟩ :=
      hreads li hli before op behind hsplit v hv hspace
    refine ⟨earlier, List.mem_flatMap.mpr ⟨li, hli, ?_⟩, dest, hdest, ?_, hloc⟩
    · rw [hsplit]
      exact List.mem_append_left _ hearlier
    · exact .inr ((congrArg Location.space hloc).trans hspace)

def Arch.registers : Arch → List Varnode
  | .x86 => X86.registers
  | .arm => Arm.registers

theorem Arch.registerFile (arch : Arch) : RegisterFile arch.registers := by
  cases arch with
  | x86 => exact X86.registerFile
  | arm => exact Arm.registerFile

theorem Arch.processFunction_wellNamed {arch : Arch} {name : String} {bytes : List UInt8}
    {base : Address} {f : Function} (h : arch.processFunction name bytes base = .ok f) :
    ∃ flat, f = .ofStream name base flat ∧ IsLifted base flat ∧
      WellNamed arch.registers (flat.flatMap LiftedInstruction.ops) := by
  cases arch with
  | x86 =>
    obtain ⟨flat, rfl, hdec⟩ := processFunction_decodes h
    exact ⟨flat, rfl, hdec.isLifted X86.lawful, hdec.wellNamed X86.scopes X86.usesRegisters⟩
  | arm =>
    obtain ⟨flat, rfl, hdec⟩ := processFunction_decodes h
    exact ⟨flat, rfl, hdec.isLifted Arm.lawful, hdec.wellNamed Arm.scopes Arm.usesRegisters⟩

end Decompiler
