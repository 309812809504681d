import Decompiler.Arm.Machine
import Decompiler.Cfg.Lifted
import Decompiler.Library.Simulation

/-! # The lifted words follow the machine

The registers and the flags are cells of their own, so each lifted word does to them what
the machine does, and goes where the machine goes. The exception is `B.NE`: it is lifted as
a jump on the recorded equality, as `B.EQ` is, and goes the other way.
-/

namespace Decompiler.Arm

open Simulation

def SameRegs (σ : State) (c : Cpu) : Prop := ∀ r, σ.read (reg r) = (c.regs r).toNat

/-- The cells hold the registers and what the most recent comparison recorded. -/
structure Matches (σ : State) (c : Cpu) : Prop where
  regs : SameRegs σ c
  flags : ∀ e, c.equal = some e → σ.read flags = if e then 1 else 0

/-- Two callees have the same effect on the registers and the recorded comparison. -/
def SameEffect (callee : BranchTarget → State → State) (cpuCallee : Address → Cpu → Cpu) : Prop :=
  ∀ target σ c, Matches σ c → Matches (callee (.absolute target) σ) (cpuCallee target c)

theorem toNat_reg_offset (r : Reg64) : (reg r).offset.toNat = r.number.val := by
  have hlt := r.number.isLt
  exact Nat.mod_eq_of_lt (by omega)

theorem reg_location_injective {r s : Reg64} (h : (reg r).location = (reg s).location) :
    r = s := by
  have hnumber : (reg r).offset.toNat = (reg s).offset.toNat :=
    congrArg (fun l => l.offset.toNat) h
  rw [toNat_reg_offset, toNat_reg_offset] at hnumber
  obtain ⟨r⟩ := r
  obtain ⟨s⟩ := s
  exact congrArg Reg64.mk (Fin.ext hnumber)

theorem reg_ne_flags (r : Reg64) : (reg r).location ≠ flags.location := by
  intro h
  have hsize : (8 : UInt8) = 4 := congrArg Location.size h
  exact absurd hsize (by decide)

namespace Matches

variable {σ : State} {c : Cpu} (h : Matches σ c)

include h

theorem write_reg (dst : Reg64) {value : ℕ} {v : UInt64} (hv : value % 2 ^ 64 = v.toNat) :
    Matches (σ.write (reg dst) value) (c.set dst v) := by
  constructor
  · intro r
    by_cases hr : r = dst
    · subst hr
      have hspace : (reg r).space ≠ .constant := nofun
      rw [State.read_write_self σ hspace, Cpu.set]
      exact hv.trans (by simp)
    · rw [σ.read_write_of_ne fun he => hr (reg_location_injective he), h.regs, Cpu.set]
      simp [hr]
  · intro e he
    rw [σ.read_write_of_ne (reg_ne_flags dst).symm]
    exact h.flags e he

theorem write_flags (b : Bool) {value : ℕ} (hv : value = if b then 1 else 0) :
    Matches (σ.write Arm.flags value) { c with equal := some b } := by
  constructor
  · intro r
    rw [σ.read_write_of_ne (reg_ne_flags r), h.regs]
  · rintro e ⟨⟩
    have hspace : Arm.flags.space ≠ .constant := nofun
    rw [State.read_write_self σ hspace, hv]
    cases b <;> rfl

end Matches

theorem read_imm (σ : State) (val : UInt32) : σ.read (imm val) = val.toUInt64.toNat :=
  State.read_literal σ rfl

theorem branchAddress_eq_ok {pc target : Address} {rel : Int32}
    (h : branchAddress pc rel = .ok target) : target = relTarget pc rel := by
  obtain ⟨t, ht, h⟩ := Fallible.bind_eq_ok.mp h
  rw [← Except.ok.inj h, addI64_eq_ok ht]
  rfl

section Lift

variable {callee : BranchTarget → State → State} {cpuCallee : Address → Cpu → Cpu}
  {σ : State} {c : Cpu}

def ExecTo (callee : BranchTarget → State → State) (ops : List Instruction) (σ : State)
    (result : Cpu × Control) : Prop :=
  ∃ σ', execOps callee ops σ = some (σ', result.2) ∧ Matches σ' result.1

theorem execTo_mov (h : Matches σ c) (dst : Reg64) (val : UInt32) :
    ExecTo callee [.copy (reg dst) (imm val)] σ (c.set dst val.toUInt64, .fall) := by
  refine ⟨_, rfl, h.write_reg dst ?_⟩
  rw [read_imm]
  exact Nat.mod_eq_of_lt (UInt64.toNat_lt _)

theorem execTo_add (h : Matches σ c) (dst src : Reg64) {rhs : Varnode} {v : UInt64}
    (hrhs : σ.read rhs = v.toNat) :
    ExecTo callee [.intAdd (reg dst) (reg src) rhs] σ (c.set dst (c.regs src + v), .fall) := by
  refine ⟨_, rfl, h.write_reg dst ?_⟩
  rw [h.regs, hrhs, UInt64.toNat_add]

theorem execTo_cmp (h : Matches σ c) (lhs : Reg64) {rhs : Varnode} {v : UInt64}
    (hrhs : σ.read rhs = v.toNat) :
    ExecTo callee [.intEqual flags (reg lhs) rhs] σ
      ({ c with equal := some (c.regs lhs = v) }, .fall) := by
  refine ⟨_, rfl, h.write_flags _ ?_⟩
  rw [h.regs, hrhs]
  have hiff : (c.regs lhs).toNat = v.toNat ↔ c.regs lhs = v := UInt64.toNat_inj
  exact if_congr (hiff.trans (decide_eq_true_iff).symm) rfl rfl

theorem execOps_cbranch (h : Matches σ c) {e : Bool} (he : c.equal = some e) (target : Address) :
    execOps callee [.cbranch flags (.absolute target)] σ =
      some (σ, if e then .jump (.absolute target) else .fall) := by
  rw [execOps, Instruction.control, h.flags e he]
  cases e <;> rfl

theorem lift_bne {pc : Address} {rel : Int32} {length : ℕ} {temps temps' : TempAllocator}
    {ops : List Instruction} (hops : lift (.bne rel) pc length temps = .ok (ops, temps')) :
    ops = [.cbranch flags (.absolute (relTarget pc rel))] := by
  obtain ⟨target, ht, hops⟩ := Fallible.bind_eq_ok.mp hops
  obtain ⟨rfl, -⟩ := Prod.mk.inj (Except.ok.inj hops)
  rw [branchAddress_eq_ok ht]

/-- The operations of every instruction but `B.NE` do what the instruction does, and go where
it goes. -/
theorem execTo_lift (hcallee : SameEffect callee cpuCallee) (h : Matches σ c)
    {i : ArmInstruction} {pc : Address} {length : ℕ} {temps temps' : TempAllocator}
    {ops : List Instruction} {result : Cpu × Control} (hne : ∀ rel, i ≠ .bne rel)
    (hops : lift i pc length temps = .ok (ops, temps'))
    (hexec : i.exec cpuCallee pc c = some result) : ExecTo callee ops σ result := by
  cases i with
  | movRegImm dst imm =>
    obtain ⟨rfl, -⟩ := Prod.mk.inj (Except.ok.inj hops)
    obtain rfl := Option.some.inj hexec
    exact execTo_mov h dst imm
  | addRegReg dst src1 src2 =>
    obtain ⟨rfl, -⟩ := Prod.mk.inj (Except.ok.inj hops)
    obtain rfl := Option.some.inj hexec
    exact execTo_add h dst src1 (h.regs src2)
  | addRegImm dst src imm =>
    obtain ⟨rfl, -⟩ := Prod.mk.inj (Except.ok.inj hops)
    obtain rfl := Option.some.inj hexec
    exact execTo_add h dst src (read_imm σ imm)
  | cmpRegReg lhs rhs =>
    obtain ⟨rfl, -⟩ := Prod.mk.inj (Except.ok.inj hops)
    obtain rfl := Option.some.inj hexec
    exact execTo_cmp h lhs (h.regs rhs)
  | cmpRegImm lhs imm =>
    obtain ⟨rfl, -⟩ := Prod.mk.inj (Except.ok.inj hops)
    obtain rfl := Option.some.inj hexec
    exact execTo_cmp h lhs (read_imm σ imm)
  | b rel =>
    obtain ⟨target, ht, hops⟩ := Fallible.bind_eq_ok.mp hops
    obtain ⟨rfl, -⟩ := Prod.mk.inj (Except.ok.inj hops)
    obtain rfl := Option.some.inj hexec
    rw [branchAddress_eq_ok ht]
    exact ⟨σ, rfl, h⟩
  | bl rel =>
    obtain ⟨target, ht, hops⟩ := Fallible.bind_eq_ok.mp hops
    obtain ⟨rfl, -⟩ := Prod.mk.inj (Except.ok.inj hops)
    obtain rfl := Option.some.inj hexec
    rw [branchAddress_eq_ok ht]
    exact ⟨_, rfl, hcallee _ σ c h⟩
  | beq rel =>
    obtain ⟨target, ht, hops⟩ := Fallible.bind_eq_ok.mp hops
    obtain ⟨rfl, -⟩ := Prod.mk.inj (Except.ok.inj hops)
    obtain ⟨e, he, rfl⟩ := Option.map_eq_some_iff.mp hexec
    rw [branchAddress_eq_ok ht]
    exact ⟨σ, execOps_cbranch h he _, h⟩
  | bne rel => exact absurd rfl (hne rel)
  | ret =>
    obtain ⟨rfl, -⟩ := Prod.mk.inj (Except.ok.inj hops)
    obtain rfl := Option.some.inj hexec
    exact ⟨σ, rfl, h⟩

end Lift

inductive LiftedStep (callee : BranchTarget → State → State) (lis : List LiftedInstruction) :
    Option Address × State → Option Address × State → Prop
  | fall {li next : LiftedInstruction} {σ σ' : State} (follows : Follows lis li next)
    (exec : execOps callee li.ops σ = some (σ', .fall)) :
    LiftedStep callee lis (some li.address, σ) (some next.address, σ')
  | jump {li : LiftedInstruction} {target : Address} {σ σ' : State} (mem : li ∈ lis)
    (exec : execOps callee li.ops σ = some (σ', .jump (.absolute target))) :
    LiftedStep callee lis (some li.address, σ) (some target, σ')
  | stop {li : LiftedInstruction} {σ σ' : State} (mem : li ∈ lis)
    (exec : execOps callee li.ops σ = some (σ', .stop)) :
    LiftedStep callee lis (some li.address, σ) (none, σ')

def Recorded (lis : List LiftedInstruction) (place : Option Address) : Prop :=
  ∀ pc, place = some pc → pc ∈ lis.map LiftedInstruction.address

section Runs

variable {bytes : List UInt8} {base : Address} {lis : List LiftedInstruction}
  {callee : BranchTarget → State → State} {cpuCallee : Address → Cpu → Cpu}

theorem LiftsWords.liftedStep (hlis : LiftsWords bytes base lis) {li : LiftedInstruction}
    (hli : li ∈ lis) {σ σ' : State} {ctl : Control} {next : Option Address}
    (hexec : execOps callee li.ops σ = some (σ', ctl)) (hgoes : Goes li.address ctl next)
    (hnext : Recorded lis next) : LiftedStep callee lis (some li.address, σ) (next, σ') := by
  cases hgoes with
  | fall haddr =>
    obtain ⟨li', hli', rfl⟩ := List.mem_map.mp (hnext _ rfl)
    exact .fall ((hlis.follows_iff hli hli').mpr haddr) hexec
  | jump target => exact .jump hli hexec
  | stop => exact .stop hli hexec

theorem LiftsWords.goes_of_step (hlis : LiftsWords bytes base lis) {li : LiftedInstruction}
    (hli : li ∈ lis) {σ : State} {y : Option Address × State}
    (hstep : LiftedStep callee lis (some li.address, σ) y) :
    ∃ ctl, execOps callee li.ops σ = some (y.2, ctl) ∧ Goes li.address ctl y.1 := by
  generalize hx : (some li.address, σ) = x at hstep
  cases hstep with
  | @fall li' next _ _ hfollows hexec =>
    obtain ⟨haddr, rfl⟩ := Prod.mk.inj hx
    obtain rfl := hlis.address_inj hli hfollows.mem_left (Option.some.inj haddr)
    exact ⟨_, hexec, .fall ((hlis.follows_iff hli hfollows.mem_right).mp hfollows)⟩
  | jump hmem hexec =>
    obtain ⟨haddr, rfl⟩ := Prod.mk.inj hx
    obtain rfl := hlis.address_inj hli hmem (Option.some.inj haddr)
    exact ⟨_, hexec, .jump _⟩
  | stop hmem hexec =>
    obtain ⟨haddr, rfl⟩ := Prod.mk.inj hx
    obtain rfl := hlis.address_inj hli hmem (Option.some.inj haddr)
    exact ⟨_, hexec, .stop⟩

theorem LiftsWords.step_unique (hlis : LiftsWords bytes base lis)
    {x y z : Option Address × State} (hy : LiftedStep callee lis x y)
    (hz : LiftedStep callee lis x z) : y = z := by
  have hsource : ∃ li ∈ lis, x.1 = some li.address := by
    cases hy with
    | fall hfollows _ => exact ⟨_, hfollows.mem_left, rfl⟩
    | jump hmem _ => exact ⟨_, hmem, rfl⟩
    | stop hmem _ => exact ⟨_, hmem, rfl⟩
  obtain ⟨li, hli, hx⟩ := hsource
  obtain ⟨_, σ⟩ := x
  obtain rfl := hx
  obtain ⟨ctl, hexec, hgoes⟩ := hlis.goes_of_step hli hy
  obtain ⟨ctl', hexec', hgoes'⟩ := hlis.goes_of_step hli hz
  obtain ⟨hσ, rfl⟩ := Prod.mk.inj (Option.some.inj (hexec.symm.trans hexec'))
  exact Prod.ext (hgoes.unique hgoes') hσ

/-- The word at a place is a `B.NE` to another word than the next one. -/
def Misbranches (bytes : List UInt8) (base : Address) (place : Option Address) : Prop :=
  ∃ pc rel, place = some pc ∧ Fetches bytes base pc (.bne rel) ∧
    addU64 pc 4 ≠ .ok (relTarget pc rel)

structure IsRun (callee : Address → Cpu → Cpu) (bytes : List UInt8) (base : Address)
    (lis : List LiftedInstruction) (n : ℕ) (run : ℕ → Option Address × Cpu) : Prop where
  step : ∀ k < n, CpuStep callee bytes base (run k) (run (k + 1))
  recorded : ∀ k ≤ n, Recorded lis (run k).1

/-- The recorded instructions pass through the places of a run with the same registers. -/
def Mirrors (callee : BranchTarget → State → State) (lis : List LiftedInstruction) (n : ℕ)
    (run : ℕ → Option Address × Cpu) (σ : State) : Prop :=
  ∀ k ≤ n, ∃ σ', Steps (LiftedStep callee lis) k ((run 0).1, σ) ((run k).1, σ') ∧
    SameRegs σ' (run k).2

variable (hlis : LiftsWords bytes base lis) (hcallee : SameEffect callee cpuCallee)

include hlis hcallee

/-- The recorded instructions follow a step of the machine, except from such a `B.NE`. -/
theorem exists_liftedStep {x y : Option Address × Cpu} (hx : Recorded lis x.1)
    (hy : Recorded lis y.1) (hstep : CpuStep cpuCallee bytes base x y)
    (hbranch : ¬ Misbranches bytes base x.1) {σ : State} (hm : Matches σ x.2) :
    ∃ σ', LiftedStep callee lis (x.1, σ) (y.1, σ') ∧ Matches σ' y.2 := by
  cases hstep with
  | @step pc c c' i ctl next hfetch hexec hgoes =>
    obtain ⟨li, hli, rfl⟩ := List.mem_map.mp (hx pc rfl)
    obtain ⟨j, length, temps, temps', hfetch', hlift⟩ := hlis.fetches hli
    obtain rfl := hfetch.unique hfetch'
    by_cases hne : ∀ rel, i ≠ .bne rel
    · obtain ⟨σ', hσ', hm'⟩ := execTo_lift hcallee hm hne hlift hexec
      exact ⟨σ', hlis.liftedStep hli hσ' hgoes hy, hm'⟩
    · -- whichever way the branch goes, it leads to the next word
      push Not at hne
      obtain ⟨rel, rfl⟩ := hne
      have htarget : addU64 li.address 4 = .ok (relTarget li.address rel) := by
        by_contra hnot
        exact hbranch ⟨li.address, rel, rfl, hfetch, hnot⟩
      obtain ⟨e, he, hresult⟩ := Option.map_eq_some_iff.mp hexec
      obtain ⟨rfl, rfl⟩ := Prod.mk.inj hresult
      have hplace : next = some (relTarget li.address rel) := by
        cases e with
        | false => exact hgoes.unique (.jump _)
        | true => exact hgoes.unique (.fall htarget)
      refine ⟨σ, ?_, hm⟩
      have hcbranch : execOps callee [.cbranch flags (.absolute (relTarget li.address rel))] σ = _ :=
        execOps_cbranch hm he _
      rw [← lift_bne hlift] at hcbranch
      apply hlis.liftedStep hli hcbranch _ hy
      rw [hplace]
      cases e with
      | false => exact .fall htarget
      | true => exact .jump _

omit hcallee in
theorem place_ne_of_misbranches {x y : Option Address × Cpu} (hx : Recorded lis x.1)
    (hstep : CpuStep cpuCallee bytes base x y) (hbranch : Misbranches bytes base x.1)
    {σ : State} (hm : Matches σ x.2) {z : Option Address × State}
    (hz : LiftedStep callee lis (x.1, σ) z) : z.1 ≠ y.1 := by
  cases hstep with
  | @step pc c c' i ctl next hfetch hexec hgoes =>
    obtain ⟨_, rel, ⟨⟩, hfetch', hnot⟩ := hbranch
    obtain rfl := hfetch.unique hfetch'
    obtain ⟨li, hli, rfl⟩ := List.mem_map.mp (hx pc rfl)
    obtain ⟨j, length, temps, temps', hfetch'', hlift⟩ := hlis.fetches hli
    obtain rfl := hfetch.unique hfetch''
    obtain ⟨e, he, hresult⟩ := Option.map_eq_some_iff.mp hexec
    obtain ⟨rfl, rfl⟩ := Prod.mk.inj hresult
    obtain ⟨ctl', hexec', hgoes'⟩ := hlis.goes_of_step hli hz
    rw [lift_bne hlift, execOps_cbranch hm he] at hexec'
    obtain ⟨-, rfl⟩ := Prod.mk.inj (Option.some.inj hexec')
    intro heq
    rw [heq] at hgoes'
    dsimp only at hgoes'
    cases e with
    | false =>
      obtain rfl := hgoes.unique (.jump _)
      cases hgoes' with
      | fall haddr => exact hnot haddr
    | true =>
      obtain rfl := hgoes'.unique (.jump _)
      cases hgoes with
      | fall haddr => exact hnot haddr

end Runs

theorem IsRun.exists_steps {bytes : List UInt8} {base : Address} {lis : List LiftedInstruction}
    {callee : BranchTarget → State → State} {cpuCallee : Address → Cpu → Cpu} {n : ℕ}
    {run : ℕ → Option Address × Cpu} (hrun : IsRun cpuCallee bytes base lis n run)
    (hlis : LiftsWords bytes base lis) (hcallee : SameEffect callee cpuCallee) {σ : State}
    (hm : Matches σ (run 0).2) {k : ℕ} (hk : k ≤ n)
    (hbranch : ∀ j < k, ¬ Misbranches bytes base (run j).1) :
    ∃ σ', Steps (LiftedStep callee lis) k ((run 0).1, σ) ((run k).1, σ') ∧
      Matches σ' (run k).2 := by
  induction k with
  | zero => exact ⟨σ, .refl _, hm⟩
  | succ k ih =>
    obtain ⟨τ, hsteps, hτ⟩ := ih (by omega) fun j hj => hbranch j (by omega)
    obtain ⟨σ', hstep, hm'⟩ := exists_liftedStep hlis hcallee (hrun.recorded k (by omega))
      (hrun.recorded (k + 1) hk) (hrun.step k hk) (hbranch k (Nat.lt_succ_self k)) hτ
    exact ⟨σ', .tail hsteps hstep, hm'⟩

/-- The first such `B.NE` of a run leads the recorded instructions astray. -/
theorem IsRun.not_mirrors {bytes : List UInt8} {base : Address} {lis : List LiftedInstruction}
    {callee : BranchTarget → State → State} {cpuCallee : Address → Cpu → Cpu} {n : ℕ}
    {run : ℕ → Option Address × Cpu} (hrun : IsRun cpuCallee bytes base lis n run)
    (hlis : LiftsWords bytes base lis) (hcallee : SameEffect callee cpuCallee) {σ : State}
    (hm : Matches σ (run 0).2) {k : ℕ} (hk : k < n) (hbranch : Misbranches bytes base (run k).1)
    (hfirst : ∀ j < k, ¬ Misbranches bytes base (run j).1) : ¬ Mirrors callee lis n run σ := by
  intro hmirrors
  obtain ⟨τ, hsteps, hτ⟩ := hrun.exists_steps hlis hcallee hm hk.le hfirst
  obtain ⟨σ', hsteps', -⟩ := hmirrors (k + 1) hk
  obtain ⟨y, hy, hstep⟩ := hsteps'.exists_last
  obtain rfl := hsteps.unique hy fun _ _ _ => hlis.step_unique
  exact place_ne_of_misbranches hlis (hrun.recorded k hk.le) (hrun.step k hk) hbranch hτ hstep rfl

/-- The recorded instructions mirror a run of the machine exactly if the run executes no `B.NE`
to another word than the next one. -/
theorem mirrors_iff_not_misbranches {bytes : List UInt8} {base : Address}
    {lis : List LiftedInstruction} (hlis : LiftsWords bytes base lis)
    {callee : BranchTarget → State → State} {cpuCallee : Address → Cpu → Cpu}
    (hcallee : SameEffect callee cpuCallee) {n : ℕ} {run : ℕ → Option Address × Cpu}
    (hrun : IsRun cpuCallee bytes base lis n run) {σ : State} (hm : Matches σ (run 0).2) :
    Mirrors callee lis n run σ ↔ ∀ k < n, ¬ Misbranches bytes base (run k).1 := by
  constructor
  · intro hmirrors k
    induction k using Nat.strong_induction_on with
    | h k ih =>
      intro hk hbranch
      apply hrun.not_mirrors hlis hcallee hm hk hbranch _ hmirrors
      exact fun j hj => ih j hj (by omega)
  · intro hbranch k hk
    obtain ⟨σ', hsteps, hm'⟩ := hrun.exists_steps hlis hcallee hm hk
      fun j hj => hbranch j (by omega)
    exact ⟨σ', hsteps, hm'.regs⟩

theorem decodes_liftsWords {bytes : List UInt8} {base : Address} {offset : ℕ}
    {temps : TempAllocator} {lis : List LiftedInstruction}
    (h : Decodes backend bytes base offset temps lis) (k : ℕ) (li : LiftedInstruction)
    (hk : lis[k]? = some li) : li.address.toNat = base.toNat + (offset + 4 * k) ∧
      ∃ result temps temps', disassembleOne (bytes.drop (offset + 4 * k)) li.address = .ok result ∧
        lift result.instruction li.address result.length temps = .ok (li.ops, temps') := by
  have hfirst : ∀ {offset length : ℕ} {temps temps' : TempAllocator} {li : LiftedInstruction},
      DecodedAt backend bytes base offset temps li length temps' →
      li.address.toNat = base.toNat + offset ∧
        ∃ result temps temps', disassembleOne (bytes.drop offset) li.address = .ok result ∧
          lift result.instruction li.address result.length temps = .ok (li.ops, temps') := by
    intro offset length temps temps' li hdec
    obtain ⟨result, hres, rfl, hlift⟩ := hdec.decoded
    exact ⟨addU64_eq_ok_iff.mp hdec.address, result, temps, temps', hres, hlift⟩
  induction h generalizing k with
  | stop _ => cases hk
  | last hdec _ =>
    cases k with
    | zero =>
      obtain rfl := Option.some.inj hk
      exact hfirst hdec
    | succ k => cases hk
  | @next offset _ _ _ _ _ hdec _ _ ih =>
    cases k with
    | zero =>
      obtain rfl := Option.some.inj hk
      exact hfirst hdec
    | succ k =>
      obtain ⟨result, hres, hlen, -⟩ := hdec.decoded
      obtain rfl := hlen.symm.trans (disassembleOne_length hres).1
      have hsum : offset + 4 + 4 * k = offset + 4 * (k + 1) := by omega
      exact hsum ▸ ih k hk

theorem processFunction_liftsWords {name : String} {bytes : List UInt8} {base : Address}
    {f : Function} (hf : Arch.arm.processFunction name bytes base = .ok f) :
    LiftsWords bytes base (Cfg.stream f) := by
  obtain ⟨lis, rfl, hdec⟩ := processFunction_decodes hf
  have hstream : Cfg.stream { Function.new name base with blocks := [⟨base, lis, [], []⟩] } =
      lis := by simp [Cfg.stream]
  rw [hstream]
  intro k li hk
  have hat := decodes_liftsWords hdec k li hk
  rwa [Nat.zero_add] at hat

def Cpu.zero : Cpu := ⟨fun _ => 0, none⟩

theorem matches_zero : Matches .zero .zero := ⟨fun _ => rfl, nofun⟩

/-- `cmp x0, x0; b.eq` or `b.ne` over `mov x1, #1`, then `ret` -/
def branchTest (opcode : UInt8) : List UInt8 :=
  [0x00, 0x00, 0x00, 0x13, 0x08, 0x00, 0x00, opcode, 0x21, 0x00, 0x00, 0x10,
    0x00, 0x00, 0x00, 0x18]

def branchRun (next : Address) : ℕ → Option Address × Cpu
  | 0 => (some 0x1000, .zero)
  | 1 => (some 0x1004, { Cpu.zero with equal := some true })
  | _ => (some next, { Cpu.zero with equal := some true })

theorem fetches_cmp (opcode : UInt8) :
    Fetches (branchTest opcode) 0x1000 0x1000 (.cmpRegReg ⟨0⟩ ⟨0⟩) :=
  ⟨0, 0x13000000, rfl, rfl, .cmp (by decide)⟩

theorem fetches_beq : Fetches (branchTest 0x16) 0x1000 0x1004 (.beq 8) :=
  ⟨1, 0x16000008, rfl, rfl, .b_eq (by decide)⟩

theorem fetches_bne : Fetches (branchTest 0x17) 0x1000 0x1004 (.bne 8) :=
  ⟨1, 0x17000008, rfl, rfl, .b_ne (by decide)⟩

theorem isRun_branchRun {opcode : UInt8} {next : Address} {f : Function}
    (haddrs : (Cfg.stream f).map LiftedInstruction.address = [0x1000, 0x1004, 0x1008, 0x100C])
    (hnext : next ∈ (Cfg.stream f).map LiftedInstruction.address)
    (hstep : CpuStep (fun _ c => c) (branchTest opcode) 0x1000
      (some 0x1004, { Cpu.zero with equal := some true })
      (some next, { Cpu.zero with equal := some true })) :
    IsRun (fun _ c => c) (branchTest opcode) 0x1000 (Cfg.stream f) 2 (branchRun next) where
  step k hk := by
    match k, hk with
    | 0, _ => exact .step (fetches_cmp opcode) rfl (.fall (by decide))
    | 1, _ => exact hstep
  recorded k hk := by
    rintro pc hpc
    match k, hk with
    | 0, _ =>
      obtain rfl := Option.some.inj hpc
      simp [haddrs]
    | 1, _ =>
      obtain rfl := Option.some.inj hpc
      simp [haddrs]
    | 2, _ =>
      obtain rfl := Option.some.inj hpc
      exact hnext

theorem not_misbranches_cmp (opcode : UInt8) :
    ¬ Misbranches (branchTest opcode) 0x1000 (some 0x1000) := by
  rintro ⟨_, rel, ⟨⟩, hfetch, -⟩
  cases (fetches_cmp opcode).unique hfetch

theorem mirrors_iff_not_misbranches_beq : ∃ f,
    Arch.arm.processFunction "input" (branchTest 0x16) 0x1000 = .ok f ∧
      Mirrors (fun _ σ => σ) (Cfg.stream f) 2 (branchRun 0x100C) .zero := by
  have hdec : ∃ f, Arch.arm.processFunction "input" (branchTest 0x16) 0x1000 = .ok f ∧
      (Cfg.stream f).map LiftedInstruction.address = [0x1000, 0x1004, 0x1008, 0x100C] := by
    decide +kernel
  obtain ⟨f, hf, haddrs⟩ := hdec
  have hstep : CpuStep (fun _ c => c) (branchTest 0x16) 0x1000
      (some 0x1004, { Cpu.zero with equal := some true })
      (some 0x100C, { Cpu.zero with equal := some true }) := .step fetches_beq rfl (.jump _)
  have hrun := isRun_branchRun haddrs (by simp [haddrs]) hstep
  have heffect : SameEffect (fun _ σ => σ) fun _ c => c := fun _ _ _ h => h
  refine ⟨f, hf, (mirrors_iff_not_misbranches (processFunction_liftsWords hf) heffect hrun
    matches_zero).mpr fun k hk => ?_⟩
  match k, hk with
  | 0, _ => exact not_misbranches_cmp 0x16
  | 1, _ =>
    rintro ⟨_, rel, ⟨⟩, hfetch, -⟩
    cases fetches_beq.unique hfetch

/-- After an equal comparison the machine falls through `B.NE` and the recorded instructions
jump. -/
theorem not_mirrors_bne : ∃ f,
    Arch.arm.processFunction "input" (branchTest 0x17) 0x1000 = .ok f ∧
      LiftsWords (branchTest 0x17) 0x1000 (Cfg.stream f) ∧
      IsRun (fun _ c => c) (branchTest 0x17) 0x1000 (Cfg.stream f) 2 (branchRun 0x1008) ∧
      Matches .zero (branchRun 0x1008 0).2 ∧
      ¬ Mirrors (fun _ σ => σ) (Cfg.stream f) 2 (branchRun 0x1008) .zero := by
  have hdec : ∃ f, Arch.arm.processFunction "input" (branchTest 0x17) 0x1000 = .ok f ∧
      (Cfg.stream f).map LiftedInstruction.address = [0x1000, 0x1004, 0x1008, 0x100C] := by
    decide +kernel
  obtain ⟨f, hf, haddrs⟩ := hdec
  have hstep : CpuStep (fun _ c => c) (branchTest 0x17) 0x1000
      (some 0x1004, { Cpu.zero with equal := some true })
      (some 0x1008, { Cpu.zero with equal := some true }) :=
    .step fetches_bne rfl (.fall (by decide))
  have hrun := isRun_branchRun haddrs (by simp [haddrs]) hstep
  have heffect : SameEffect (fun _ σ => σ) fun _ c => c := fun _ _ _ h => h
  have hbranch : Misbranches (branchTest 0x17) 0x1000 (some 0x1004) :=
    ⟨0x1004, 8, rfl, fetches_bne, by decide⟩
  refine ⟨f, hf, processFunction_liftsWords hf, hrun, matches_zero, ?_⟩
  apply hrun.not_mirrors (processFunction_liftsWords hf) heffect matches_zero Nat.one_lt_two hbranch
  rintro j hj
  obtain rfl := Nat.lt_one_iff.mp hj
  exact not_misbranches_cmp 0x17

end Decompiler.Arm
