import Decompiler.Cli.ProcessFunction
import Decompiler.Ir.Semantics
import Decompiler.Library.Adjacent
import Decompiler.Library.Fallible

/-! # What the decode loop records

The recorded instructions follow one another through the bytes, each the lift of
what was decoded at its own offset. What an architecture promises about its
decoder and lifter therefore holds of every recorded instruction.
-/

namespace Decompiler

variable {I : Type} {backend : Backend I} {bytes : List UInt8} {base : Address}

structure DecodedAt (backend : Backend I) (bytes : List UInt8) (base : Address) (offset : ℕ)
    (temps : TempAllocator) (li : LiftedInstruction) (length : ℕ) (temps' : TempAllocator) :
    Prop where
  offset_lt : offset < bytes.length
  address : addU64 base offset = .ok li.address
  decoded : ∃ result, backend.disassembleOne (bytes.drop offset) li.address = .ok result ∧
    result.length = length ∧
    backend.lift result.instruction li.address length temps = .ok (li.ops, temps')
  length_le : offset + length ≤ bytes.length

inductive Decodes (backend : Backend I) (bytes : List UInt8) (base : Address) :
    ℕ → TempAllocator → List LiftedInstruction → Prop
  | stop {offset : ℕ} {temps : TempAllocator}
      (stopped : bytes.length ≤ offset ∨ ∃ address e, addU64 base offset = .ok address ∧
        backend.disassembleOne (bytes.drop offset) address = .error e) :
      Decodes backend bytes base offset temps []
  | last {offset length : ℕ} {temps temps' : TempAllocator} {li : LiftedInstruction}
      (decoded : DecodedAt backend bytes base offset temps li length temps') (ret : .ret ∈ li.ops) :
      Decodes backend bytes base offset temps [li]
  | next {offset length : ℕ} {temps temps' : TempAllocator} {li : LiftedInstruction}
      {rest : List LiftedInstruction}
      (decoded : DecodedAt backend bytes base offset temps li length temps')
      (no_ret : .ret ∉ li.ops) (more : Decodes backend bytes base (offset + length) temps' rest) :
      Decodes backend bytes base offset temps (li :: rest)

theorem decodeLoop_decodes {fuel offset : ℕ} {temps : TempAllocator} {block b : BasicBlock}
    (h : decodeLoop backend bytes base fuel offset temps block = .ok b) :
    ∃ lis, b = { block with instructions := block.instructions ++ lis } ∧
      Decodes backend bytes base offset temps lis := by
  induction fuel generalizing offset temps block with
  | zero => cases h
  | succ fuel ih =>
    rw [decodeLoop] at h
    split at h
    case isTrue hend =>
      obtain rfl := Except.ok.inj h
      exact ⟨[], by simp, .stop (Or.inl hend)⟩
    case isFalse hend =>
      obtain ⟨address, haddr, h⟩ := Fallible.bind_eq_ok.mp h
      simp only at h
      split at h
      case h_1 e he =>
        obtain rfl := Except.ok.inj h
        exact ⟨[], by simp, .stop (Or.inr ⟨address, e, haddr, he⟩)⟩
      case h_2 result hres =>
        split at h
        case isTrue => cases h
        case isFalse hlen =>
          obtain ⟨⟨ops, temps'⟩, hlift, h⟩ := Fallible.bind_eq_ok.mp h
          rw [List.length_drop] at hlen
          have hdec : DecodedAt backend bytes base offset temps ⟨address, ops⟩ result.length
              temps' :=
            ⟨by omega, haddr, ⟨result, hres, rfl, hlift⟩, by omega⟩
          simp only at h
          split at h
          case isTrue hret =>
            obtain rfl := Except.ok.inj h
            exact ⟨_, rfl, .last hdec hret⟩
          case isFalse hret =>
            obtain ⟨lis, rfl, hrest⟩ := ih h
            exact ⟨⟨address, ops⟩ :: lis, by simp [BasicBlock.push], .next hdec hret hrest⟩

theorem processFunction_decodes {name : String} {f : Function}
    (h : processFunction backend name bytes base = .ok f) :
    ∃ lis, f = { Function.new name base with blocks := [⟨base, lis, [], []⟩] } ∧
      Decodes backend bytes base 0 .new lis := by
  obtain ⟨block, hblock, hf⟩ := Fallible.bind_eq_ok.mp h
  obtain ⟨lis, rfl, hdec⟩ := decodeLoop_decodes hblock
  exact ⟨lis, (Except.ok.inj hf).symm, hdec⟩

/-- The operations of one instruction: well-formed, with a terminator in the last
place only, and with resolved branch targets. -/
structure Shaped (ops : List Instruction) : Prop where
  wellFormed : ∀ op ∈ ops, op.WellFormed
  terminator_last : ∀ op ∈ ops.dropLast, op.isTerminator = false
  absolute : ∀ op ∈ ops, op.isAbsolute

/-- What an architecture promises: progress within the bytes, shaped operations, at most
one temporary for every two bytes, and no fault but an overflow of addresses. -/
structure Backend.Lawful (backend : Backend I) : Prop where
  length_pos : ∀ {bytes address result},
    backend.disassembleOne bytes address = .ok result → 0 < result.length
  length_le : ∀ {bytes address result},
    backend.disassembleOne bytes address = .ok result → result.length ≤ bytes.length
  shaped : ∀ {i address length temps ops temps'},
    backend.lift i address length temps = .ok (ops, temps') → Shaped ops
  temps_le : ∀ {bytes address result temps ops temps'},
    backend.disassembleOne bytes address = .ok result →
    backend.lift result.instruction address result.length temps = .ok (ops, temps') →
    2 * temps'.next.toNat ≤ 2 * temps.next.toNat + result.length
  failsOnly : ∀ {i address length temps}, temps.next.toNat + 1 < 2 ^ 64 →
    Fallible.FailsOnly .addressOverflow (backend.lift i address length temps)

namespace Decodes

variable {offset : ℕ} {temps : TempAllocator} {lis : List LiftedInstruction}

theorem decodedAt (h : Decodes backend bytes base offset temps lis) {li : LiftedInstruction}
    (hli : li ∈ lis) : ∃ offset' temps' length temps'', offset ≤ offset' ∧
      DecodedAt backend bytes base offset' temps' li length temps'' := by
  induction h with
  | stop _ => cases hli
  | last hdec _ =>
    obtain rfl := List.mem_singleton.mp hli
    exact ⟨_, _, _, _, Nat.le_refl _, hdec⟩
  | next hdec _ _ ih =>
    rcases List.mem_cons.mp hli with rfl | hli
    · exact ⟨_, _, _, _, Nat.le_refl _, hdec⟩
    · obtain ⟨o, t, n, t', hle, hd⟩ := ih hli
      exact ⟨o, t, n, t', by omega, hd⟩

theorem shaped (hlaw : backend.Lawful) (h : Decodes backend bytes base offset temps lis)
    {li : LiftedInstruction} (hli : li ∈ lis) : Shaped li.ops := by
  obtain ⟨_, _, _, _, -, hdec⟩ := h.decodedAt hli
  obtain ⟨result, -, -, hlift⟩ := hdec.decoded
  exact hlaw.shaped hlift

theorem addresses_sorted (hlaw : backend.Lawful)
    (h : Decodes backend bytes base offset temps lis) :
    (lis.map LiftedInstruction.address).Pairwise (· < ·) := by
  induction h with
  | stop _ => exact List.Pairwise.nil
  | last _ _ => simp
  | next hdec _ hrest ih =>
    refine List.pairwise_cons.mpr ⟨fun a ha => ?_, ih⟩
    obtain ⟨li, hli, rfl⟩ := List.mem_map.mp ha
    obtain ⟨_, _, _, _, hle, hdec'⟩ := hrest.decodedAt hli
    obtain ⟨result, hres, rfl, -⟩ := hdec.decoded
    have hpos := hlaw.length_pos hres
    have h₁ := addU64_eq_ok_iff.mp hdec.address
    have h₂ := addU64_eq_ok_iff.mp hdec'.address
    rw [UInt64.lt_iff_toNat_lt]
    omega

theorem head_address (h : Decodes backend bytes base offset temps lis) :
    ∀ li ∈ lis.head?, addU64 base offset = .ok li.address := by
  intro li hli
  cases h with
  | stop _ => cases hli
  | last hdec _ =>
    obtain rfl := Option.some.inj hli
    exact hdec.address
  | next hdec _ _ =>
    obtain rfl := Option.some.inj hli
    exact hdec.address

theorem last_or_follows (h : Decodes backend bytes base offset temps lis)
    {li : LiftedInstruction} (hli : li ∈ lis) : ∃ offset' temps' length temps'',
      DecodedAt backend bytes base offset' temps' li length temps'' ∧
        (lis.getLast? = some li ∨
          ∃ next, Follows lis li next ∧ addU64 li.address length = .ok next.address) := by
  induction h with
  | stop _ => cases hli
  | last hdec _ =>
    obtain rfl := List.mem_singleton.mp hli
    exact ⟨_, _, _, _, hdec, Or.inl rfl⟩
  | @next o n t t' first rest hdec _ hrest ih =>
    cases rest with
    | nil =>
      obtain rfl := List.mem_singleton.mp hli
      exact ⟨_, _, _, _, hdec, Or.inl rfl⟩
    | cons second rest =>
      rcases List.mem_cons.mp hli with rfl | hli
      · refine ⟨_, _, _, _, hdec, Or.inr ⟨second, Follows.cons_iff.mpr (Or.inl ⟨rfl, rfl⟩), ?_⟩⟩
        have h₁ := addU64_eq_ok_iff.mp hdec.address
        have h₂ := addU64_eq_ok_iff.mp (hrest.head_address second rfl)
        rw [addU64_eq_ok_iff]
        omega
      · obtain ⟨o', t₁, n', t₂, hd, hlast | ⟨next, hnext, haddr⟩⟩ := ih hli
        · exact ⟨o', t₁, n', t₂, hd, Or.inl (by rwa [List.getLast?_cons_cons])⟩
        · exact ⟨o', t₁, n', t₂, hd, Or.inr ⟨next, Follows.cons_iff.mpr (Or.inr hnext), haddr⟩⟩

end Decodes

/-- A stream as the decode loop yields it: addresses increase from the entry on, and
every instruction is shaped. -/
structure IsLifted (entry : Address) (flat : List LiftedInstruction) : Prop where
  sorted : (flat.map LiftedInstruction.address).Pairwise (· < ·)
  head : ∀ li ∈ flat.head?, li.address = entry
  shaped : ∀ li ∈ flat, Shaped li.ops

theorem IsLifted.nodup {entry : Address} {flat : List LiftedInstruction}
    (h : IsLifted entry flat) : (flat.map LiftedInstruction.address).Nodup :=
  h.sorted.imp fun hab => UInt64.ne_of_lt hab

theorem Decodes.isLifted (hlaw : backend.Lawful) {temps : TempAllocator}
    {lis : List LiftedInstruction} (h : Decodes backend bytes base 0 temps lis) :
    IsLifted base lis where
  sorted := h.addresses_sorted hlaw
  head li hli := by
    have := addU64_eq_ok_iff.mp (h.head_address li hli)
    exact UInt64.toNat_inj.mp this
  shaped li hli := h.shaped hlaw hli

end Decompiler
