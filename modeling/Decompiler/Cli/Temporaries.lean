import Decompiler.Cli.Tiling

/-! # Temporaries are single-assignment and local

One allocator is threaded through the lifts of a function. A lift assigns temporaries
between the counter before it and the counter behind it, each once, and reads only those
that it has assigned.
-/

namespace Decompiler

def Instruction.assignedTemp (op : Instruction) : Option UInt64 :=
  match op.opDest with
  | some dest => if dest.space = .unique then some dest.offset else none
  | none => none

/-- The temporaries that operations assign, one entry for each assignment. -/
def assignedTemps (ops : List Instruction) : List UInt64 := ops.filterMap Instruction.assignedTemp

/-- Every temporary that is read has been assigned before, at the same size. -/
def ReadsOwn (ops : List Instruction) : Prop :=
  ∀ before op behind, ops = before ++ op :: behind → ∀ v ∈ op.operands, v.space = .unique →
    ∃ earlier ∈ before, ∃ dest, earlier.opDest = some dest ∧ dest.location = v.location

theorem ReadsOwn.of_forall {ops : List Instruction}
    (h : ∀ op ∈ ops, ∀ v ∈ op.operands, v.space ≠ .unique) : ReadsOwn ops := by
  rintro before op behind rfl v hv hspace
  exact absurd hspace (h op (by simp) v hv)

theorem ReadsOwn.pair {first second : Instruction}
    (hfirst : ∀ v ∈ first.operands, v.space ≠ .unique)
    (hsecond : ∀ v ∈ second.operands, v.space = .unique →
      ∃ dest, first.opDest = some dest ∧ dest.location = v.location) :
    ReadsOwn [first, second] := by
  intro before op behind hops v hv hspace
  rcases before with _ | ⟨op', _ | ⟨op'', before⟩⟩
  · obtain ⟨rfl, -⟩ := List.cons.inj hops
    exact absurd hspace (hfirst v hv)
  · simp only [List.cons_append, List.nil_append, List.cons.injEq] at hops
    obtain ⟨rfl, rfl, -⟩ := hops
    exact ⟨first, List.mem_singleton_self first, hsecond v hv hspace⟩
  · simp at hops

/-- The temporaries of operations lie between two states of the allocator. -/
structure Scoped (temps temps' : TempAllocator) (ops : List Instruction) : Prop where
  le : temps.next.toNat ≤ temps'.next.toNat
  fresh : ∀ t ∈ assignedTemps ops, temps.next.toNat ≤ t.toNat ∧ t.toNat < temps'.next.toNat
  nodup : (assignedTemps ops).Nodup
  reads : ReadsOwn ops

theorem Scoped.of_forall {temps : TempAllocator} {ops : List Instruction}
    (hdest : assignedTemps ops = []) (h : ∀ op ∈ ops, ∀ v ∈ op.operands, v.space ≠ .unique) :
    Scoped temps temps ops where
  le := Nat.le_refl _
  fresh t ht := by simp [hdest] at ht
  nodup := by simp [hdest]
  reads := .of_forall h

theorem Scoped.pair {temps temps' : TempAllocator} {size : UInt8} {v : Varnode}
    {first second : Instruction} (hfresh : temps.fresh size = .ok (v, temps'))
    (hdest : first.opDest = some v) (hfirst : ∀ u ∈ first.operands, u.space ≠ .unique)
    (hsecond : ∀ u ∈ second.operands, u.space = .unique → u = v)
    (hno : second.assignedTemp = none) : Scoped temps temps' [first, second] := by
  have hnext := fresh_next hfresh
  obtain ⟨rfl, -, -⟩ := fresh_eq_ok hfresh
  have hassigned : assignedTemps [first, second] = [temps.next] := by
    have hsome : first.assignedTemp = some temps.next := by
      simp [Instruction.assignedTemp, hdest, Varnode.new]
    simp [assignedTemps, hsome, hno]
  constructor
  · omega
  · intro t ht
    obtain rfl := List.mem_singleton.mp (hassigned ▸ ht)
    omega
  · rw [hassigned]
    exact List.nodup_singleton _
  · refine .pair hfirst fun u hu hspace => ⟨_, hdest, ?_⟩
    rw [hsecond u hu hspace]

def Backend.Scopes {I : Type} (backend : Backend I) : Prop :=
  ∀ {i address length temps ops temps'},
    backend.lift i address length temps = .ok (ops, temps') → Scoped temps temps' ops

namespace X86

theorem scoped_liftCmp {lhs : Reg32} {rhs : Varnode} {temps temps' : TempAllocator}
    {ops : List Instruction} (hrhs : rhs.space ≠ .unique)
    (h : liftCmp lhs rhs temps = .ok (ops, temps')) : Scoped temps temps' ops := by
  obtain ⟨⟨diff, t⟩, hfresh, h⟩ := Fallible.bind_eq_ok.mp h
  obtain ⟨rfl, rfl⟩ := Prod.mk.inj (Except.ok.inj h)
  refine .pair hfresh rfl ?_ ?_ rfl
  · simp [Instruction.operands, regVarnode, Varnode.register, Varnode.named, hrhs]
  · simp [Instruction.operands, Varnode.constant, Varnode.new]

theorem scopes : backend.Scopes := by
  intro i address length temps ops temps' h
  change lift i address length temps = .ok (ops, temps') at h
  cases i with
  | movRegReg | movRegImm | addRegReg | addRegImm | ret =>
    obtain ⟨rfl, rfl⟩ := Prod.mk.inj (Except.ok.inj h)
    exact .of_forall rfl (by
      simp [liftMovRegReg, liftMovRegImm, liftAdd, liftRet, Instruction.operands, regVarnode,
        immVarnode, Varnode.register, Varnode.named, Varnode.constant, Varnode.new])
  | cmpRegReg lhs rhs | cmpRegImm lhs imm =>
    refine scoped_liftCmp ?_ h
    simp [regVarnode, immVarnode, Varnode.register, Varnode.named, Varnode.constant, Varnode.new]
  | jmp rel | je rel | call rel =>
    obtain ⟨target, -, h⟩ := Fallible.bind_eq_ok.mp h
    obtain ⟨rfl, rfl⟩ := Prod.mk.inj (Except.ok.inj h)
    exact .of_forall rfl (by
      simp [liftJmp, liftJe, liftCall, Instruction.operands, zfVarnode, Varnode.named])
  | jne rel =>
    obtain ⟨target, -, h⟩ := Fallible.bind_eq_ok.mp h
    obtain ⟨⟨notZf, t⟩, hfresh, h⟩ := Fallible.bind_eq_ok.mp h
    obtain ⟨rfl, rfl⟩ := Prod.mk.inj (Except.ok.inj h)
    refine .pair hfresh rfl ?_ ?_ rfl
    · simp [Instruction.operands, zfVarnode, Varnode.named, Varnode.constant, Varnode.new]
    · simp [Instruction.operands]

end X86

namespace Arm

theorem scopes : backend.Scopes := by
  intro i address length temps ops temps' h
  change lift i address length temps = .ok (ops, temps') at h
  cases i with
  | movRegImm | addRegReg | addRegImm | cmpRegReg | cmpRegImm | ret =>
    obtain ⟨rfl, rfl⟩ := Prod.mk.inj (Except.ok.inj h)
    exact .of_forall rfl (by
      simp [Instruction.operands, reg, imm, Varnode.named, Varnode.constant, Varnode.new])
  | b rel | bl rel | beq rel | bne rel =>
    obtain ⟨target, -, h⟩ := Fallible.bind_eq_ok.mp h
    obtain ⟨rfl, rfl⟩ := Prod.mk.inj (Except.ok.inj h)
    exact .of_forall rfl (by simp [Instruction.operands, flags, Varnode.named])

end Arm

theorem assignedTemps_append (ops ops' : List Instruction) :
    assignedTemps (ops ++ ops') = assignedTemps ops ++ assignedTemps ops' :=
  List.filterMap_append

/-- The recorded instructions assign temporaries from the counter on, each once, and read their
own. -/
theorem Decodes.scoped {I : Type} {backend : Backend I} {bytes : List UInt8} {base : Address}
    (hscopes : backend.Scopes) {offset : ℕ} {temps : TempAllocator} {lis : List LiftedInstruction}
    (h : Decodes backend bytes base offset temps lis) :
    (∀ t ∈ assignedTemps (lis.flatMap LiftedInstruction.ops), temps.next.toNat ≤ t.toNat) ∧
      (assignedTemps (lis.flatMap LiftedInstruction.ops)).Nodup ∧
      ∀ li ∈ lis, ReadsOwn li.ops := by
  induction h with
  | stop => simp [assignedTemps]
  | last hdec =>
    obtain ⟨result, -, -, hlift⟩ := hdec.decoded
    have hscoped := hscopes hlift
    simp only [List.flatMap_cons, List.flatMap_nil, List.append_nil, List.mem_singleton, forall_eq]
    exact ⟨fun t ht => (hscoped.fresh t ht).1, hscoped.nodup, hscoped.reads⟩
  | next hdec _ _ ih =>
    obtain ⟨result, -, -, hlift⟩ := hdec.decoded
    have hscoped := hscopes hlift
    obtain ⟨hfresh, hnodup, hreads⟩ := ih
    simp only [List.flatMap_cons, assignedTemps_append, List.mem_append, List.mem_cons,
      forall_eq_or_imp]
    refine ⟨?_, ?_, hscoped.reads, hreads⟩
    · rintro t (ht | ht)
      · exact (hscoped.fresh t ht).1
      · exact hscoped.le.trans (hfresh t ht)
    · refine hscoped.nodup.append hnodup ?_
      -- the counter behind the first instruction separates the temporaries
      intro t ht ht'
      have hlt := (hscoped.fresh t ht).2
      have hge := hfresh t ht'
      omega

/-- In what the decode loop yields for x86, no two operations assign the same temporary, and each
read of one comes after its assignment in the same instruction, at the same size. -/
theorem x86_temporaries_local (name : String) (bytes : List UInt8) (base : Address) :
    Arch.x86.processFunction name bytes base = .error .addressOverflow ∨
      ∃ f, Arch.x86.processFunction name bytes base = .ok f ∧
        (assignedTemps (f.blocks.flatMap BasicBlock.ops)).Nodup ∧
        ∀ b ∈ f.blocks, ∀ li ∈ b.instructions, ∀ before op behind,
          li.ops = before ++ op :: behind → ∀ v ∈ op.operands, v.space = .unique →
            ∃ earlier ∈ before, ∃ dest, earlier.opDest = some dest ∧
              dest.location = v.location := by
  rcases (processFunction_failsOnly X86.lawful name).eq_error_or_ok with herror | ⟨f, hf⟩
  · exact Or.inl herror
  · right
    obtain ⟨lis, rfl, hdec⟩ := processFunction_decodes hf
    obtain ⟨-, hnodup, hreads⟩ := hdec.scoped X86.scopes
    refine ⟨_, hf, ?_, ?_⟩
    · simpa [BasicBlock.ops] using hnodup
    · intro b hb li hli
      obtain rfl := List.mem_singleton.mp hb
      exact hreads li hli

end Decompiler
