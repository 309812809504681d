import Decompiler.Cli.Backends

/-! # When the addresses do not overflow

The loop and the lifters add addresses with checks. Which additions are made is decided by
the bytes alone: they fix the offsets at which decoding is tried and the displacements found
there. No addition overflows when the addresses of these offsets fit and no branch
crosses the middle of the address space, and then every target is exact.
-/

namespace Decompiler

/-- What an architecture's branches look like: their displacements, which count from the
address of the branch or from the one behind it. -/
structure Branching (I : Type) where
  decode : List UInt8 → Except DecodeError (I × ℕ)
  displacement : I → Option Int32
  returns : I → Bool
  origin : ℕ → ℕ

def X86.branching : Branching X86Instruction where
  decode := decodeOne
  displacement
    | .jmp rel | .je rel | .jne rel | .call rel => some rel
    | _ => none
  returns i := i = .ret
  origin length := length

def Arm.branching : Branching ArmInstruction where
  decode := decodeOne
  displacement
    | .b rel | .bl rel | .beq rel | .bne rel => some rel
    | _ => none
  returns i := i = .ret
  origin _ := 0

/-- The branch stays on its side of the middle of the address space. -/
def SameHalf (address : ℕ) (origin : ℕ) (rel : Int32) : Prop :=
  if address < 2 ^ 63 then address + origin < 2 ^ 63 ∧ address + origin + rel.toInt < 2 ^ 63
  else (2 ^ 63 : ℤ) ≤ address + origin + rel.toInt

namespace Branching

variable {I : Type} (s : Branching I) (bytes : List UInt8)

inductive Visits : ℕ → ℕ → Prop
  | here {offset : ℕ} : offset < bytes.length → Visits offset offset
  | next {offset last : ℕ} {i : I} {length : ℕ} : offset < bytes.length →
      s.decode (bytes.drop offset) = .ok (i, length) → s.returns i = false →
      Visits (offset + length) last → Visits offset last

/-- The address of an offset is a 64-bit word, and a branch there stays in its half. -/
structure FitsAt (base : Address) (offset : ℕ) : Prop where
  address : base.toNat + offset < 2 ^ 64
  branch : ∀ i length rel, s.decode (bytes.drop offset) = .ok (i, length) →
    s.displacement i = some rel → SameHalf (base.toNat + offset) (s.origin length) rel

end Branching

section Sums

theorem exists_addI64_iff {a b : Int64} : (∃ c, addI64 a b = .ok c) ↔
    -2 ^ 63 ≤ a.toInt + b.toInt ∧ a.toInt + b.toInt < 2 ^ 63 := by
  constructor
  · rintro ⟨c, hc⟩
    unfold addI64 at hc
    split at hc
    case isTrue h => exact h
    case isFalse => cases hc
  · rintro ⟨hlow, hhigh⟩
    obtain ⟨c, hc, -⟩ := exists_addI64 hlow hhigh
    exact ⟨c, hc⟩

theorem toInt_of_addI64 {a b c : Int64} (h : addI64 a b = .ok c) :
    c.toInt = a.toInt + b.toInt := by
  obtain ⟨hlow, hhigh⟩ := exists_addI64_iff.mp ⟨c, h⟩
  obtain ⟨c', hc', hint⟩ := exists_addI64 hlow hhigh
  rwa [Except.ok.inj (h.symm.trans hc')]

theorem toNat_toUInt64 (c : Int64) : (c.toUInt64.toNat : ℤ) = c.toInt % 2 ^ 64 := by
  have hc := toInt_toInt64 c.toUInt64
  have hlt := c.toUInt64.toNat_lt
  have hback : c.toUInt64.toInt64 = c := rfl
  rw [hback] at hc
  split at hc <;> omega

theorem exists_resolveRel_iff {address : Address} {length : ℕ} {rel : Int32}
    (hlen : length < 2 ^ 31) : (∃ target, X86.resolveRel address length rel = .ok target) ↔
      SameHalf address.toNat length rel := by
  have haddr := toInt_toInt64 address
  have hlt := address.toNat_lt
  have hlen' : (Int64.ofNat length).toInt = length := Int64.toInt_ofNat_of_lt (by omega)
  have hrel := Int32.toInt_toInt64 rel
  have hle := rel.le_toInt
  have hlt' := rel.toInt_lt
  have hsums : (∃ target, X86.resolveRel address length rel = .ok target) ↔
      ∃ next, addI64 address.toInt64 (.ofNat length) = .ok next ∧
        ∃ target, addI64 next rel.toInt64 = .ok target := by
    constructor
    · rintro ⟨target, h⟩
      obtain ⟨next, hnext, h⟩ := Fallible.bind_eq_ok.mp h
      obtain ⟨sum, hsum, -⟩ := Fallible.bind_eq_ok.mp h
      exact ⟨next, hnext, sum, hsum⟩
    · rintro ⟨next, hnext, sum, hsum⟩
      exact ⟨sum.toUInt64, by rw [X86.resolveRel, hnext, Fallible.ok_bind, hsum]; rfl⟩
  rw [hsums, SameHalf]
  constructor
  · rintro ⟨next, hnext, hsum⟩
    have hfirst := exists_addI64_iff.mp ⟨next, hnext⟩
    have hsecond := exists_addI64_iff.mp hsum
    rw [toInt_of_addI64 hnext] at hsecond
    split <;> split at haddr <;> omega
  · intro h
    obtain ⟨next, hnext⟩ := @exists_addI64_iff address.toInt64 (.ofNat length) |>.mpr (by
      split at h <;> split at haddr <;> omega)
    refine ⟨next, hnext, exists_addI64_iff.mpr ?_⟩
    rw [toInt_of_addI64 hnext]
    split at h <;> split at haddr <;> omega

theorem exists_branchAddress_iff {address : Address} {rel : Int32} :
    (∃ target, Arm.branchAddress address rel = .ok target) ↔ SameHalf address.toNat 0 rel := by
  have haddr := toInt_toInt64 address
  have hlt := address.toNat_lt
  have hrel := Int32.toInt_toInt64 rel
  have hle := rel.le_toInt
  have hlt' := rel.toInt_lt
  have hsum : (∃ target, Arm.branchAddress address rel = .ok target) ↔
      ∃ target, addI64 address.toInt64 rel.toInt64 = .ok target := by
    constructor
    · rintro ⟨target, h⟩
      obtain ⟨sum, hsum, -⟩ := Fallible.bind_eq_ok.mp h
      exact ⟨sum, hsum⟩
    · rintro ⟨sum, hsum⟩
      exact ⟨sum.toUInt64, by rw [Arm.branchAddress, hsum]; rfl⟩
  rw [hsum, exists_addI64_iff, SameHalf]
  constructor
  · intro h
    split <;> split at haddr <;> omega
  · intro h
    split at h <;> split at haddr <;> omega

theorem resolveRel_exact {address target : Address} {length : ℕ} {rel : Int32}
    (hlen : length < 2 ^ 31) (h : X86.resolveRel address length rel = .ok target) :
    (target.toNat : ℤ) = (address.toNat + length + rel.toInt) % 2 ^ 64 := by
  have haddr := toInt_toInt64 address
  have hlen' : (Int64.ofNat length).toInt = length := Int64.toInt_ofNat_of_lt (by omega)
  obtain ⟨next, hnext, h⟩ := Fallible.bind_eq_ok.mp h
  obtain ⟨sum, hsum, h⟩ := Fallible.bind_eq_ok.mp h
  rw [← Except.ok.inj h, toNat_toUInt64, toInt_of_addI64 hsum, toInt_of_addI64 hnext, hlen',
    Int32.toInt_toInt64]
  split at haddr <;> omega

theorem branchAddress_exact {address target : Address} {rel : Int32}
    (h : Arm.branchAddress address rel = .ok target) :
    (target.toNat : ℤ) = (address.toNat + (0 : ℕ) + rel.toInt) % 2 ^ 64 := by
  have haddr := toInt_toInt64 address
  obtain ⟨sum, hsum, h⟩ := Fallible.bind_eq_ok.mp h
  rw [← Except.ok.inj h, toNat_toUInt64, toInt_of_addI64 hsum, Int32.toInt_toInt64]
  split at haddr <;> omega

end Sums

def Instruction.absolute? : Instruction → Option Address
  | .branch target | .cbranch _ target | .call target => target.address?
  | _ => none

/-- A back end whose branches are those described: a lift fails only for a branch that leaves its
half, and the targets are the displaced addresses. -/
structure Branching.Describes {I : Type} (s : Branching I) (backend : Backend I) : Prop where
  disassembleOne : ∀ bytes address, backend.disassembleOne bytes address =
    (s.decode bytes).map fun r => ⟨r.1, r.2, address⟩
  lifts_iff : ∀ {bytes i length address temps}, s.decode bytes = .ok (i, length) →
    temps.next.toNat + 1 < 2 ^ 64 → ((∃ r, backend.lift i address length temps = .ok r) ↔
      ∀ rel, s.displacement i = some rel → SameHalf address.toNat (s.origin length) rel)
  ret_mem : ∀ {i length address temps ops temps'},
    backend.lift i address length temps = .ok (ops, temps') → (.ret ∈ ops ↔ s.returns i = true)
  target : ∀ {bytes i length address temps ops temps'}, s.decode bytes = .ok (i, length) →
    backend.lift i address length temps = .ok (ops, temps') →
    ∀ op ∈ ops, ∀ target, op.absolute? = some target → ∃ rel, s.displacement i = some rel ∧
      (target.toNat : ℤ) = (address.toNat + s.origin length + rel.toInt) % 2 ^ 64

namespace X86

theorem Encodes.length_le {p : List UInt8} {i : X86Instruction} (h : Encodes p i) :
    p.length ≤ 6 := by
  cases h <;> simp [imm32]

theorem decodeOne_length_lt {bytes : List UInt8} {i : X86Instruction} {n : ℕ}
    (h : decodeOne bytes = .ok (i, n)) : n < 2 ^ 31 := by
  obtain ⟨hle, henc⟩ := decodeOne_encodes h
  have hlen := henc.length_le
  rw [List.length_take_of_le hle] at hlen
  omega

theorem lift_targets {i : X86Instruction} {address : Address} {length : ℕ}
    {temps temps' : TempAllocator} {ops : List Instruction}
    (h : lift i address length temps = .ok (ops, temps')) : (.ret ∈ ops ↔ i = .ret) ∧
      ∀ op ∈ ops, ∀ target, op.absolute? = some target → ∃ rel,
        branching.displacement i = some rel ∧ resolveRel address length rel = .ok target := by
  have hcmp : ∀ {lhs rhs}, liftCmp lhs rhs temps = .ok (ops, temps') →
      .ret ∉ ops ∧ ∀ op ∈ ops, op.absolute? = none := by
    intro lhs rhs h
    obtain ⟨⟨diff, t⟩, -, h⟩ := Fallible.bind_eq_ok.mp h
    obtain ⟨rfl, -⟩ := Prod.mk.inj (Except.ok.inj h)
    simp [Instruction.absolute?]
  cases i with
  | movRegReg | movRegImm | addRegReg | addRegImm | ret =>
    obtain ⟨rfl, -⟩ := Prod.mk.inj (Except.ok.inj h)
    simp [liftMovRegReg, liftMovRegImm, liftAdd, liftRet, Instruction.absolute?]
  | cmpRegReg | cmpRegImm =>
    obtain ⟨hret, hnone⟩ := hcmp h
    refine ⟨by simp [hret], fun op hop target htarget => ?_⟩
    rw [hnone op hop] at htarget
    cases htarget
  | jmp rel | je rel | call rel =>
    obtain ⟨target, htarget, h⟩ := Fallible.bind_eq_ok.mp h
    obtain ⟨rfl, -⟩ := Prod.mk.inj (Except.ok.inj h)
    simpa [liftJmp, liftJe, liftCall, Instruction.absolute?, BranchTarget.address?, branching]
      using htarget
  | jne rel =>
    obtain ⟨target, htarget, h⟩ := Fallible.bind_eq_ok.mp h
    obtain ⟨⟨notZf, t⟩, -, h⟩ := Fallible.bind_eq_ok.mp h
    obtain ⟨rfl, -⟩ := Prod.mk.inj (Except.ok.inj h)
    simpa [Instruction.absolute?, BranchTarget.address?, branching] using htarget

theorem branching_describes : branching.Describes backend where
  disassembleOne bytes address := by
    change disassembleOne bytes address = (decodeOne bytes).map _
    rw [disassembleOne]
    cases decodeOne bytes <;> rfl
  lifts_iff {bytes i length address temps} hdec htemps := by
    have hlen := decodeOne_length_lt hdec
    change (∃ r, lift i address length temps = .ok r) ↔ _
    cases i with
    | movRegReg | movRegImm | addRegReg | addRegImm | ret =>
      exact iff_of_true ⟨_, rfl⟩ (by simp [branching])
    | cmpRegReg lhs rhs | cmpRegImm lhs imm =>
      obtain ⟨⟨diff, t⟩, hfresh⟩ := exists_fresh htemps regSize
      exact iff_of_true ⟨_, by rw [lift, liftCmp, hfresh]; rfl⟩ (by simp [branching])
    | jmp rel | je rel | call rel =>
      refine (Fallible.exists_bind_eq_ok_iff fun _ => ⟨_, rfl⟩).trans ?_
      rw [exists_resolveRel_iff hlen]
      simp [branching]
    | jne rel =>
      obtain ⟨⟨notZf, t⟩, hfresh⟩ := exists_fresh htemps 1
      refine (Fallible.exists_bind_eq_ok_iff fun _ => ⟨_, by rw [liftJne, hfresh]; rfl⟩).trans ?_
      rw [exists_resolveRel_iff hlen]
      simp [branching]
  ret_mem h := by
    rw [(lift_targets h).1]
    simp [branching]
  target hdec h op hop target htarget := by
    obtain ⟨rel, hrel, hresolve⟩ := (lift_targets h).2 op hop target htarget
    exact ⟨rel, hrel, resolveRel_exact (decodeOne_length_lt hdec) hresolve⟩

end X86

namespace Arm

theorem lift_targets {i : ArmInstruction} {address : Address} {length : ℕ}
    {temps temps' : TempAllocator} {ops : List Instruction}
    (h : lift i address length temps = .ok (ops, temps')) : (.ret ∈ ops ↔ i = .ret) ∧
      ∀ op ∈ ops, ∀ target, op.absolute? = some target → ∃ rel,
        branching.displacement i = some rel ∧ branchAddress address rel = .ok target := by
  cases i with
  | movRegImm | addRegReg | addRegImm | cmpRegReg | cmpRegImm | ret =>
    obtain ⟨rfl, -⟩ := Prod.mk.inj (Except.ok.inj h)
    simp [Instruction.absolute?]
  | b rel | bl rel | beq rel | bne rel =>
    obtain ⟨target, htarget, h⟩ := Fallible.bind_eq_ok.mp h
    obtain ⟨rfl, -⟩ := Prod.mk.inj (Except.ok.inj h)
    simpa [Instruction.absolute?, BranchTarget.address?, branching] using htarget

theorem branching_describes : branching.Describes backend where
  disassembleOne bytes address := by
    change disassembleOne bytes address = (decodeOne bytes).map _
    rw [disassembleOne]
    cases decodeOne bytes <;> rfl
  lifts_iff {bytes i length address temps} _ _ := by
    change (∃ r, lift i address length temps = .ok r) ↔ _
    cases i with
    | movRegImm | addRegReg | addRegImm | cmpRegReg | cmpRegImm | ret =>
      exact iff_of_true ⟨_, rfl⟩ (by simp [branching])
    | b rel | bl rel | beq rel | bne rel =>
      refine (Fallible.exists_bind_eq_ok_iff fun _ => ⟨_, rfl⟩).trans ?_
      rw [exists_branchAddress_iff]
      simp [branching]
  ret_mem {_ length _ _ _ _} h := by
    rw [(@lift_targets _ _ length _ _ _ h).1]
    simp [branching]
  target {_ _ length _ _ _ _} _ h op hop target htarget := by
    obtain ⟨rel, hrel, hbranch⟩ := (@lift_targets _ _ length _ _ _ h).2 op hop target htarget
    exact ⟨rel, hrel, branchAddress_exact hbranch⟩

end Arm

section Loop

variable {I : Type} {s : Branching I} {backend : Backend I} {bytes : List UInt8} {base : Address}
  {offset : ℕ}

namespace Branching

theorem Visits.lt {last : ℕ} (h : s.Visits bytes offset last) : offset < bytes.length := by
  cases h <;> assumption

theorem forall_visits_of_error {e : DecodeError} {P : ℕ → Prop} (hlt : offset < bytes.length)
    (hdec : s.decode (bytes.drop offset) = .error e) :
    (∀ o, s.Visits bytes offset o → P o) ↔ P offset := by
  constructor
  · exact fun h => h offset (.here hlt)
  · intro h o hvisits
    cases hvisits with
    | here => exact h
    | next _ hok => simp [hdec] at hok

theorem forall_visits_of_ok {i : I} {length : ℕ} {P : ℕ → Prop} (hlt : offset < bytes.length)
    (hdec : s.decode (bytes.drop offset) = .ok (i, length)) :
    (∀ o, s.Visits bytes offset o → P o) ↔
      P offset ∧ (s.returns i = false → ∀ o, s.Visits bytes (offset + length) o → P o) := by
  constructor
  · exact fun h => ⟨h offset (.here hlt), fun hret o hvisits => h o (.next hlt hdec hret hvisits)⟩
  · rintro ⟨hhere, hmore⟩ o hvisits
    cases hvisits with
    | here => exact hhere
    | next _ hok hret hvisits =>
      obtain ⟨rfl, rfl⟩ := Prod.mk.inj (Except.ok.inj (hdec.symm.trans hok))
      exact hmore hret o hvisits

theorem fitsAt_of_error {e : DecodeError} (hdec : s.decode (bytes.drop offset) = .error e) :
    s.FitsAt bytes base offset ↔ base.toNat + offset < 2 ^ 64 :=
  ⟨FitsAt.address, fun h => ⟨h, fun _ _ _ hok => by simp [hdec] at hok⟩⟩

theorem Describes.fitsAt_iff (hs : s.Describes backend) {i : I} {length : ℕ}
    {temps : TempAllocator} {address : Address} (haddr : address.toNat = base.toNat + offset)
    (hdec : s.decode (bytes.drop offset) = .ok (i, length))
    (htemps : temps.next.toNat + 1 < 2 ^ 64) :
    s.FitsAt bytes base offset ↔ ∃ r, backend.lift i address length temps = .ok r := by
  rw [hs.lifts_iff hdec htemps, haddr]
  constructor
  · exact fun h rel => h.branch i length rel hdec
  · intro h
    refine ⟨haddr ▸ address.toNat_lt, ?_⟩
    intro i' length' rel hok
    obtain ⟨rfl, rfl⟩ := Prod.mk.inj (Except.ok.inj (hdec.symm.trans hok))
    exact h rel

end Branching

variable (hlaw : backend.Lawful) (hs : s.Describes backend)

include hlaw hs

/-- The loop succeeds from an offset on exactly if no visited offset overflows. -/
theorem exists_decodeLoop_iff {fuel : ℕ} {temps : TempAllocator} {block : BasicBlock}
    (hoffset : offset ≤ bytes.length) (hfuel : bytes.length < offset + fuel)
    (htemps : 2 * temps.next.toNat ≤ offset) :
    (∃ b, decodeLoop backend bytes base fuel offset temps block = .ok b) ↔
      ∀ o, s.Visits bytes offset o → s.FitsAt bytes base o := by
  induction fuel generalizing offset temps block with
  | zero => omega
  | succ fuel ih =>
    unfold decodeLoop
    split
    case isTrue hend => exact iff_of_true ⟨_, rfl⟩ fun o hvisits => absurd hvisits.lt (by omega)
    case isFalse hend =>
      have hlt : offset < bytes.length := Nat.lt_of_not_le hend
      cases hadd : addU64 base offset with
      | error e =>
        refine iff_of_false (by simp) fun hfits => ?_
        rw [addU64, if_pos (hfits offset (.here hlt)).address] at hadd
        cases hadd
      | ok address =>
        have haddr := addU64_eq_ok_iff.mp hadd
        have hbase := address.toNat_lt
        have hres := hs.disassembleOne (bytes.drop offset) address
        rw [Fallible.ok_bind]
        dsimp only
        rw [hres]
        cases hdec : s.decode (bytes.drop offset) with
        | error e =>
          rw [s.forall_visits_of_error hlt hdec, s.fitsAt_of_error hdec]
          exact iff_of_true ⟨_, rfl⟩ (by omega)
        | ok r =>
          obtain ⟨i, length⟩ := r
          rw [hdec] at hres
          have hle := hlaw.length_le hres
          have hpos := hlaw.length_pos hres
          dsimp only [Except.map] at hle hpos ⊢
          rw [if_neg (Nat.not_lt.mpr hle), s.forall_visits_of_ok hlt hdec,
            hs.fitsAt_iff haddr hdec (show temps.next.toNat + 1 < 2 ^ 64 by omega)]
          rw [List.length_drop] at hle
          cases hrun : backend.lift i address length temps with
          | error e => exact iff_of_false (by simp) (by simp)
          | ok r =>
            obtain ⟨ops, temps'⟩ := r
            have htemps' := hlaw.temps_le hres hrun
            rw [Fallible.ok_bind]
            dsimp only at htemps' ⊢
            split
            case isTrue hret =>
              have hreturns := (hs.ret_mem hrun).mp hret
              exact iff_of_true ⟨_, rfl⟩ ⟨⟨_, rfl⟩, fun hno => by simp [hreturns] at hno⟩
            case isFalse hret =>
              have hreturns : s.returns i = false :=
                Bool.eq_false_iff.mpr fun h => hret ((hs.ret_mem hrun).mpr h)
              rw [ih (by omega) (by omega) (by omega)]
              simp [hreturns]

end Loop

/-- Every absolute target in the recorded operations is the address of its branch displaced by
what the bytes there encode, modulo two to the number of address bits. -/
def Branching.Exact {I : Type} (s : Branching I) (bytes : List UInt8) (base : Address)
    (f : Function) : Prop :=
  ∀ b ∈ f.blocks, ∀ li ∈ b.instructions, ∀ op ∈ li.ops, ∀ target, op.absolute? = some target →
    ∃ offset i length rel, li.address.toNat = base.toNat + offset ∧
      s.decode (bytes.drop offset) = .ok (i, length) ∧ s.displacement i = some rel ∧
      (target.toNat : ℤ) = (li.address.toNat + s.origin length + rel.toInt) % 2 ^ 64

section Result

variable {I : Type} {s : Branching I} {backend : Backend I} {bytes : List UInt8} {base : Address}

theorem Branching.Describes.exact (hs : s.Describes backend) {name : String} {f : Function}
    (h : processFunction backend name bytes base = .ok f) : s.Exact bytes base f := by
  obtain ⟨lis, rfl, hdec⟩ := processFunction_decodes h
  intro b hb li hli op hop target htarget
  obtain rfl := List.mem_singleton.mp hb
  obtain ⟨offset, temps, length, temps', -, hat⟩ := hdec.decodedAt hli
  obtain ⟨result, hres, rfl, hlift⟩ := hat.decoded
  rw [hs.disassembleOne] at hres
  cases hok : s.decode (bytes.drop offset) with
  | error e =>
    rw [hok] at hres
    cases hres
  | ok r =>
    rw [hok] at hres
    obtain rfl := Except.ok.inj hres
    obtain ⟨rel, hrel, hexact⟩ := hs.target hok hlift op hop target htarget
    exact ⟨offset, r.1, r.2, rel, addU64_eq_ok_iff.mp hat.address, hok, hrel, hexact⟩

theorem Branching.Describes.processes_iff (hs : s.Describes backend) (hlaw : backend.Lawful)
    (name : String) :
    (∃ f, processFunction backend name bytes base = .ok f ∧ s.Exact bytes base f) ↔
      ∀ o, s.Visits bytes 0 o → s.FitsAt bytes base o := by
  have hloop : (∃ b, decodeLoop backend bytes base (bytes.length + 1) 0 .new (.new base) = .ok b) ↔
      ∀ o, s.Visits bytes 0 o → s.FitsAt bytes base o :=
    exists_decodeLoop_iff hlaw hs (Nat.zero_le _) (by omega) (by rfl)
  rw [← hloop]
  constructor
  · rintro ⟨f, hf, -⟩
    obtain ⟨b, hb, -⟩ := Fallible.bind_eq_ok.mp hf
    exact ⟨b, hb⟩
  · rintro ⟨b, hb⟩
    have hf : processFunction backend name bytes base = .ok _ :=
      Fallible.bind_eq_ok.mpr ⟨b, hb, rfl⟩
    exact ⟨_, hf, hs.exact hf⟩

end Result

/-- On both architectures no addition of addresses overflows, and then all targets are exact,
exactly if the address of every visited offset fits and every branch there stays in its half of
the address space. -/
theorem addresses_exact_iff (name : String) (bytes : List UInt8) (base : Address) :
    ((∃ f, Arch.x86.processFunction name bytes base = .ok f ∧
        X86.branching.Exact bytes base f) ↔
      ∀ o, X86.branching.Visits bytes 0 o → X86.branching.FitsAt bytes base o) ∧
    ((∃ f, Arch.arm.processFunction name bytes base = .ok f ∧
        Arm.branching.Exact bytes base f) ↔
      ∀ o, Arm.branching.Visits bytes 0 o → Arm.branching.FitsAt bytes base o) :=
  ⟨X86.branching_describes.processes_iff X86.lawful name,
    Arm.branching_describes.processes_iff Arm.lawful name⟩

/-- A jump to the next instruction at the end of the lower half. -/
theorem addresses_overflow :
    ¬ ∀ (name : String) (bytes : List UInt8) (base : Address),
      (∃ f, Arch.x86.processFunction name bytes base = .ok f ∧ X86.branching.Exact bytes base f) ∧
      ∃ f, Arch.arm.processFunction name bytes base = .ok f ∧ Arm.branching.Exact bytes base f := by
  intro h
  obtain ⟨⟨f, hf, -⟩, -⟩ := h "middle" [0xEB, 0x00] 0x7FFFFFFFFFFFFFFF
  have hfault : Arch.x86.processFunction "middle" [0xEB, 0x00] 0x7FFFFFFFFFFFFFFF =
      .error .addressOverflow := rfl
  rw [hfault] at hf
  cases hf

end Decompiler
