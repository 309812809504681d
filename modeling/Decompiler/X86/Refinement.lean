import Decompiler.Cfg.Lifted
import Decompiler.Library.Simulation
import Decompiler.X86.Machine

/-! # The recorded instructions simulate the machine

The registers and the zero flag are cells of their own, which the temporaries of the
lifter do not touch. Each lifted instruction therefore does to them what the machine
does, and goes where the machine goes.
-/

namespace Decompiler.X86

open Simulation

/-- A state of the intermediate representation holds the registers and the flag. -/
structure Matches (σ : State) (c : Cpu) : Prop where
  regs : ∀ r, σ.read (regVarnode r) = (c.regs r).toNat
  zf : σ.read zfVarnode = if c.zf then 1 else 0

def SameEffect (callee : BranchTarget → State → State) (cpuCallee : Address → Cpu → Cpu) : Prop :=
  ∀ target σ c, Matches σ c → Matches (callee (.absolute target) σ) (cpuCallee target c)

theorem regVarnode_location_injective {r s : Reg32}
    (h : (regVarnode r).location = (regVarnode s).location) : r = s :=
  Reg32.id_injective (congrArg Location.offset h)

theorem regVarnode_ne_zf (r : Reg32) : (regVarnode r).location ≠ zfVarnode.location := by
  cases r <;> decide

namespace Matches

variable {σ : State} {c : Cpu} (h : Matches σ c)

include h

theorem write_reg (dst : Reg32) {value : ℕ} {v : UInt32} (hv : value % modulus regSize = v.toNat) :
    Matches (σ.write (regVarnode dst) value) (c.set dst v) := by
  constructor
  · intro r
    by_cases hr : r = dst
    · subst hr
      have hspace : (regVarnode r).space ≠ .constant := nofun
      rw [State.read_write_self σ hspace, Cpu.set]
      exact hv.trans (by simp)
    · rw [σ.read_write_of_ne fun he => hr (regVarnode_location_injective he), h.regs, Cpu.set]
      simp [hr]
  · rw [σ.read_write_of_ne (regVarnode_ne_zf dst).symm, h.zf]
    rfl

theorem write_zf (b : Bool) {value : ℕ} (hv : value = if b then 1 else 0) :
    Matches (σ.write zfVarnode value) { c with zf := b } := by
  constructor
  · intro r
    rw [σ.read_write_of_ne (regVarnode_ne_zf r), h.regs]
  · have hspace : zfVarnode.space ≠ .constant := nofun
    rw [State.read_write_self σ hspace, hv]
    cases b <;> rfl

theorem write_unique {dest : Varnode} (hdest : dest.space = .unique) (value : ℕ) :
    Matches (σ.write dest value) c := by
  have hne : ∀ v : Varnode, v.space = .register → v.location ≠ dest.location := by
    intro v hv he
    have hspace := congrArg Location.space he
    rw [hdest, hv] at hspace
    cases hspace
  constructor
  · intro r
    rw [σ.read_write_of_ne (hne _ rfl), h.regs]
  · rw [σ.read_write_of_ne (hne _ rfl), h.zf]

end Matches

theorem read_imm (σ : State) (imm : Int32) : σ.read (immVarnode imm) = imm.toUInt32.toNat := by
  rw [State.read_literal σ rfl]
  exact UInt32.toNat_toUInt64 _

theorem resolveRel_eq_ok {pc target : Address} {length : ℕ} {rel : Int32}
    (h : resolveRel pc length rel = .ok target) : target = relTarget pc length rel := by
  obtain ⟨next, hnext, h⟩ := Fallible.bind_eq_ok.mp h
  obtain ⟨t, ht, h⟩ := Fallible.bind_eq_ok.mp h
  rw [← Except.ok.inj h, addI64_eq_ok ht, addI64_eq_ok hnext]
  rfl

section Lift

variable {callee : BranchTarget → State → State} {cpuCallee : Address → Cpu → Cpu}
  {σ : State} {c : Cpu}

def ExecTo (callee : BranchTarget → State → State) (ops : List Instruction) (σ : State)
    (result : Cpu × Control) : Prop :=
  ∃ σ', execOps callee ops σ = some (σ', result.2) ∧ Matches σ' result.1

theorem execTo_mov (h : Matches σ c) (dst : Reg32) {src : Varnode} {v : UInt32}
    (hsrc : σ.read src = v.toNat) :
    ExecTo callee [.copy (regVarnode dst) src] σ (c.set dst v, .fall) := by
  refine ⟨_, rfl, h.write_reg dst ?_⟩
  rw [hsrc]
  exact Nat.mod_eq_of_lt v.toNat_lt

theorem execTo_add (h : Matches σ c) (dst : Reg32) {rhs : Varnode} {v : UInt32}
    (hrhs : σ.read rhs = v.toNat) :
    ExecTo callee (liftAdd dst rhs) σ (c.set dst (c.regs dst + v), .fall) := by
  refine ⟨_, rfl, h.write_reg dst ?_⟩
  rw [h.regs, hrhs, UInt32.toNat_add]
  rfl

/-- The zero flag is derived from the difference of the operands. -/
theorem execTo_cmp (h : Matches σ c) (lhs : Reg32) {rhs : Varnode} {v : UInt32}
    (hrhs : σ.read rhs = v.toNat) {temps temps' : TempAllocator} {ops : List Instruction}
    (hops : liftCmp lhs rhs temps = .ok (ops, temps')) :
    ExecTo callee ops σ ({ c with zf := c.regs lhs = v }, .fall) := by
  obtain ⟨⟨diff, t⟩, hfresh, hops⟩ := Fallible.bind_eq_ok.mp hops
  obtain ⟨rfl, rfl, -⟩ := fresh_eq_ok hfresh
  obtain ⟨rfl, -⟩ := Prod.mk.inj (Except.ok.inj hops)
  refine ⟨_, rfl, (h.write_unique rfl _).write_zf _ ?_⟩
  have hl := (c.regs lhs).toNat_lt
  have hr := v.toNat_lt
  have hsize : modulus (Varnode.new .unique temps.next regSize).size = 2 ^ 32 := rfl
  have hspace : (Varnode.new .unique temps.next regSize).space ≠ .constant := nofun
  have hzero : ∀ τ : State, τ.read (.constant 0 regSize) = 0 := fun τ => State.read_literal τ rfl
  rw [State.read_write_self σ hspace, hzero, h.regs, hrhs, hsize]
  have hiff : ((c.regs lhs).toNat + 2 ^ 32 - v.toNat % 2 ^ 32) % 2 ^ 32 = 0 ↔
      c.regs lhs = v := by
    rw [← UInt32.toNat_inj]
    omega
  exact if_congr (hiff.trans (decide_eq_true_iff).symm) rfl rfl

theorem execTo_jne (h : Matches σ c) {target : Address} {temps temps' : TempAllocator}
    {ops : List Instruction} (hops : liftJne target temps = .ok (ops, temps')) :
    ExecTo callee ops σ (c, if c.zf then .fall else .jump (.absolute target)) := by
  obtain ⟨⟨notZf, t⟩, hfresh, hops⟩ := Fallible.bind_eq_ok.mp hops
  obtain ⟨rfl, rfl, -⟩ := fresh_eq_ok hfresh
  obtain ⟨rfl, -⟩ := Prod.mk.inj (Except.ok.inj hops)
  refine ⟨σ.write (.new .unique temps.next 1) (if c.zf then 0 else 1), ?_, h.write_unique rfl _⟩
  have hspace : (Varnode.new .unique temps.next 1).space ≠ .constant := nofun
  have hexec : (Instruction.intEqual (.new .unique temps.next 1) zfVarnode
      (.constant 0 1)).exec callee σ =
        some (σ.write (.new .unique temps.next 1) (if c.zf then 0 else 1)) := by
    have hzero : σ.read (.constant 0 1) = 0 := State.read_literal σ rfl
    rw [Instruction.exec, h.zf, hzero]
    cases c.zf <;> rfl
  simp only [execOps, Instruction.control, hexec, Option.bind_some,
    State.read_write_self σ hspace]
  cases c.zf <;> rfl

theorem execTo_je (h : Matches σ c) (target : Address) :
    ExecTo callee (liftJe target) σ
      (c, if c.zf then .jump (.absolute target) else .fall) := by
  refine ⟨σ, ?_, h⟩
  rw [liftJe, execOps, Instruction.control, h.zf]
  cases c.zf <;> rfl

/-- The lifted operations do what the instruction does, and go where it goes. -/
theorem execTo_lift (hcallee : SameEffect callee cpuCallee) (h : Matches σ c)
    {i : X86Instruction} {pc : Address} {length : ℕ} {temps temps' : TempAllocator}
    {ops : List Instruction} (hops : lift i pc length temps = .ok (ops, temps')) :
    ExecTo callee ops σ (i.exec cpuCallee pc length c) := by
  cases i with
  | movRegReg dst src =>
    obtain ⟨rfl, -⟩ := Prod.mk.inj (Except.ok.inj hops)
    exact execTo_mov h dst (h.regs src)
  | movRegImm dst imm =>
    obtain ⟨rfl, -⟩ := Prod.mk.inj (Except.ok.inj hops)
    exact execTo_mov h dst (read_imm σ imm)
  | addRegReg dst src =>
    obtain ⟨rfl, -⟩ := Prod.mk.inj (Except.ok.inj hops)
    exact execTo_add h dst (h.regs src)
  | addRegImm dst imm =>
    obtain ⟨rfl, -⟩ := Prod.mk.inj (Except.ok.inj hops)
    exact execTo_add h dst (read_imm σ imm)
  | cmpRegReg lhs rhs => exact execTo_cmp h lhs (h.regs rhs) hops
  | cmpRegImm lhs imm => exact execTo_cmp h lhs (read_imm σ imm) hops
  | jmp rel =>
    obtain ⟨target, ht, hops⟩ := Fallible.bind_eq_ok.mp hops
    obtain ⟨rfl, -⟩ := Prod.mk.inj (Except.ok.inj hops)
    exact ⟨σ, by rw [resolveRel_eq_ok ht]; rfl, h⟩
  | je rel =>
    obtain ⟨target, ht, hops⟩ := Fallible.bind_eq_ok.mp hops
    obtain ⟨rfl, -⟩ := Prod.mk.inj (Except.ok.inj hops)
    rw [resolveRel_eq_ok ht]
    exact execTo_je h _
  | jne rel =>
    obtain ⟨target, ht, hops⟩ := Fallible.bind_eq_ok.mp hops
    rw [resolveRel_eq_ok ht] at hops
    exact execTo_jne h hops
  | call rel =>
    obtain ⟨target, ht, hops⟩ := Fallible.bind_eq_ok.mp hops
    obtain ⟨rfl, -⟩ := Prod.mk.inj (Except.ok.inj hops)
    rw [resolveRel_eq_ok ht]
    exact ⟨_, rfl, hcallee _ σ c h⟩
  | ret =>
    obtain ⟨rfl, -⟩ := Prod.mk.inj (Except.ok.inj hops)
    exact ⟨σ, rfl, h⟩

end Lift

inductive LiftedStep (callee : BranchTarget → State → State) (lis : List LiftedInstruction) :
    Address × State → Address × State → Prop
  | fall {li next : LiftedInstruction} {σ σ' : State} (follows : Follows lis li next)
    (exec : execOps callee li.ops σ = some (σ', .fall)) :
    LiftedStep callee lis (li.address, σ) (next.address, σ')
  | jump {li : LiftedInstruction} {target : Address} {σ σ' : State} (mem : li ∈ lis)
    (exec : execOps callee li.ops σ = some (σ', .jump (.absolute target))) :
    LiftedStep callee lis (li.address, σ) (target, σ')

section Runs

variable {bytes : List UInt8} {base : Address} {lis : List LiftedInstruction}
  (hdec : Decodes backend bytes base 0 .new lis)

include hdec

theorem fetches_of_mem {li : LiftedInstruction} (hli : li ∈ lis) :
    ∃ i length temps temps', Fetches bytes base li.address i length ∧
      lift i li.address length temps = .ok (li.ops, temps') ∧
        ∀ next, Follows lis li next ∨ (next ∈ lis ∧ li.address < next.address) →
          ∃ next', Follows lis li next' ∧ addU64 li.address length = .ok next'.address := by
  obtain ⟨offset, temps, length, temps', hat, hnext⟩ := hdec.last_or_follows hli
  obtain ⟨result, hres, rfl, hlift⟩ := hat.decoded
  obtain ⟨hle, henc⟩ := disassembleOne_encodes hres
  have hlen := hat.length_le
  refine ⟨result.instruction, result.length, temps, temps',
    ⟨offset, hat.address, hlen, henc⟩, hlift, fun next h => ?_⟩
  rcases hnext with hlast | hnext
  · -- no recorded address lies behind the last one
    exfalso
    have hsorted := hdec.addresses_sorted lawful
    obtain ⟨init, rfl⟩ := List.getLast?_eq_some_iff.mp hlast
    have hlt : ∀ x ∈ init, x.address < li.address := by
      intro x hx
      rw [List.map_append, List.pairwise_append] at hsorted
      exact hsorted.2.2 _ (List.mem_map_of_mem hx) _ (by simp)
    have hmem : next ∈ init ++ [li] ∧ li.address < next.address := by
      rcases h with h | h
      · refine ⟨h.mem_right, ?_⟩
        have hpair := hsorted.sublist (h.map LiftedInstruction.address).sublist
        exact (List.pairwise_cons.mp hpair).1 _ (by simp)
      · exact h
    rcases List.mem_append.mp hmem.1 with hin | hin
    · exact UInt64.lt_irrefl _ (UInt64.lt_trans hmem.2 (hlt next hin))
    · rw [List.mem_singleton.mp hin] at hmem
      exact UInt64.lt_irrefl _ hmem.2
  · exact hnext

variable {callee : BranchTarget → State → State} {cpuCallee : Address → Cpu → Cpu}
  (hcallee : SameEffect callee cpuCallee)

include hcallee

/-- A machine step between recorded addresses is a step over the recorded instructions. -/
theorem simulates_cpuStep : Simulates
    (fun x y => x.1 ∈ lis.map LiftedInstruction.address ∧ CpuStep cpuCallee bytes base x y ∧
      y.1 ∈ lis.map LiftedInstruction.address)
    (LiftedStep callee lis) fun x y => y.1 = x.1 ∧ Matches y.2 x.2 := by
  rintro ⟨pc, c⟩ ⟨pc', c'⟩ ⟨a, σ⟩ ⟨rfl, hm⟩ ⟨hpc, hstep, hpc'⟩
  obtain ⟨li, hli, rfl⟩ := List.mem_map.mp hpc
  obtain ⟨i, length, temps, temps', hfetch, hlift, hnext⟩ := fetches_of_mem hdec hli
  have hexec := execTo_lift hcallee hm hlift
  cases hstep with
  | fall hfetch' hi haddr =>
    obtain ⟨rfl, rfl⟩ := hfetch.unique hfetch'
    rw [hi] at hexec
    obtain ⟨σ', hσ', hm'⟩ := hexec
    obtain ⟨next, hmem, hnext_addr⟩ := List.mem_map.mp hpc'
    have hlt : li.address < next.address := by
      have hsum := addU64_eq_ok_iff.mp haddr
      obtain ⟨_, _, _, henc⟩ := hfetch
      have hpos := henc.length_pos
      rw [List.length_take] at hpos
      rw [UInt64.lt_iff_toNat_lt, hnext_addr]
      dsimp only at hsum ⊢
      omega
    obtain ⟨next', hfollows, haddr'⟩ := hnext next (Or.inr ⟨hmem, hlt⟩)
    obtain rfl := Except.ok.inj (haddr.symm.trans haddr')
    exact ⟨(next'.address, σ'), .fall hfollows hσ', rfl, hm'⟩
  | jump hfetch' hi =>
    obtain ⟨rfl, rfl⟩ := hfetch.unique hfetch'
    rw [hi] at hexec
    obtain ⟨σ', hσ', hm'⟩ := hexec
    exact ⟨_, .jump hli hσ', rfl, hm'⟩

theorem simulates_liftedStep : Simulates (LiftedStep callee lis) (CpuStep cpuCallee bytes base)
    fun x y => y.1 = x.1 ∧ Matches x.2 y.2 := by
  rintro ⟨pc, σ⟩ ⟨pc', σ'⟩ ⟨a, c⟩ ⟨rfl, hm⟩ hstep
  cases hstep with
  | @fall li next _ _ hfollows hσ' =>
    obtain ⟨i, length, temps, temps', hfetch, hlift, hnext⟩ :=
      fetches_of_mem hdec hfollows.mem_left
    obtain ⟨σ'', hσ'', hm'⟩ := execTo_lift hcallee hm hlift
    rw [hσ'] at hσ''
    obtain ⟨rfl, hctrl⟩ := Prod.mk.inj (Option.some.inj hσ'')
    obtain ⟨next', hfollows', haddr⟩ := hnext next (Or.inl hfollows)
    have hnd : lis.Nodup := (hdec.isLifted lawful).nodup.of_map
    obtain rfl := hfollows.right_unique hnd hfollows'
    exact ⟨(next.address, _), .fall hfetch (Prod.ext rfl hctrl.symm) haddr, rfl, hm'⟩
  | @jump li _ _ _ hli hσ' =>
    obtain ⟨i, length, temps, temps', hfetch, hlift, -⟩ := fetches_of_mem hdec hli
    obtain ⟨σ'', hσ'', hm'⟩ := execTo_lift hcallee hm hlift
    rw [hσ'] at hσ''
    obtain ⟨rfl, hctrl⟩ := Prod.mk.inj (Option.some.inj hσ'')
    exact ⟨(pc', _), .jump hfetch (Prod.ext rfl hctrl.symm), rfl, hm'⟩

end Runs

/-- The recorded instructions and the machine on the bytes run alike from matching
states: as long as the machine stays on recorded addresses each of its runs is one
over the recorded instructions, and each run over these is one of the machine. -/
theorem lifted_runs_iff_cpu_runs {name : String} {bytes : List UInt8} {base : Address}
    {f : Function} (hf : Arch.x86.processFunction name bytes base = .ok f)
    {callee : BranchTarget → State → State} {cpuCallee : Address → Cpu → Cpu}
    (hcallee : SameEffect callee cpuCallee) {σ : State} {c : Cpu} (hm : Matches σ c)
    (pc : Address) (n : ℕ) :
    (∀ pc' c', Steps (fun x y => x.1 ∈ (Cfg.stream f).map LiftedInstruction.address ∧
        CpuStep cpuCallee bytes base x y ∧
          y.1 ∈ (Cfg.stream f).map LiftedInstruction.address) n (pc, c) (pc', c') →
      ∃ σ', Steps (LiftedStep callee (Cfg.stream f)) n (pc, σ) (pc', σ') ∧ Matches σ' c') ∧
    ∀ pc' σ', Steps (LiftedStep callee (Cfg.stream f)) n (pc, σ) (pc', σ') →
      ∃ c', Steps (CpuStep cpuCallee bytes base) n (pc, c) (pc', c') ∧ Matches σ' c' := by
  obtain ⟨lis, rfl, hdec⟩ := processFunction_decodes hf
  have hstream : Cfg.stream { Function.new name base with blocks := [⟨base, lis, [], []⟩] } =
      lis := by simp [Cfg.stream]
  rw [hstream]
  constructor
  · intro pc' c' hrun
    obtain ⟨⟨_, σ'⟩, hrun', rfl, hm'⟩ :=
      (simulates_cpuStep hdec hcallee).steps (u := (pc, σ)) ⟨rfl, hm⟩ hrun
    exact ⟨σ', hrun', hm'⟩
  · intro pc' σ' hrun
    obtain ⟨⟨_, c'⟩, hrun', rfl, hm'⟩ :=
      (simulates_liftedStep hdec hcallee).steps (u := (pc, c)) ⟨rfl, hm⟩ hrun
    exact ⟨c', hrun', hm'⟩

def Cpu.zero : Cpu := ⟨fun _ => 0, false⟩

theorem matches_zero : Matches .zero .zero := ⟨fun _ => rfl, rfl⟩

/-- `cmp eax, 0; je` over `mov eax, 5`, then `ret` -/
def zeroTest : List UInt8 :=
  [0x3D, 0x00, 0x00, 0x00, 0x00, 0x74, 0x05, 0xB8, 0x05, 0x00, 0x00, 0x00, 0xC3]

theorem lifted_runs_iff_cpu_runs_zeroTest :
    ∃ f, Arch.x86.processFunction "input" zeroTest 0x1000 = .ok f ∧
      ∀ n pc' σ', Steps (LiftedStep (fun _ σ => σ) (Cfg.stream f)) n (0x1000, .zero) (pc', σ') →
        ∃ c', Steps (CpuStep (fun _ c => c) zeroTest 0x1000) n (0x1000, .zero) (pc', c') ∧
          Matches σ' c' := by
  have hdec : ∃ f, Arch.x86.processFunction "input" zeroTest 0x1000 = .ok f ∧ True := by
    decide +kernel
  obtain ⟨f, hf, -⟩ := hdec
  have heffect : SameEffect (fun _ σ => σ) fun _ c => c := fun _ _ _ h => h
  exact ⟨f, hf, fun n => (lifted_runs_iff_cpu_runs hf heffect matches_zero 0x1000 n).2⟩

end Decompiler.X86
