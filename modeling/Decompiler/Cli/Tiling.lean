import Decompiler.Cli.Backends

/-! # The decode loop tiles the bytes

The loop ends, and it faults on an overflow of addresses only. What it records lies one
instruction behind the other from the first byte on, up to the place where it stops.
-/

namespace Decompiler

open Fallible (FailsOnly)

variable {I : Type} {backend : Backend I} {bytes : List UInt8} {base : Address}

theorem decodeLoop_failsOnly (hlaw : backend.Lawful) {fuel offset : ℕ} {temps : TempAllocator}
    {block : BasicBlock} (hoffset : offset ≤ bytes.length) (hfuel : bytes.length < offset + fuel)
    (htemps : 2 * temps.next.toNat ≤ offset) :
    FailsOnly .addressOverflow (decodeLoop backend bytes base fuel offset temps block) := by
  induction fuel generalizing offset temps block with
  | zero => omega
  | succ fuel ih =>
    unfold decodeLoop
    split
    case isTrue => exact .ok _
    case isFalse hend =>
      apply (failsOnly_addU64 base offset).bind
      intro address haddr
      have hlt : offset < 2 ^ 64 := by
        have hsum := addU64_eq_ok_iff.mp haddr
        have := address.toNat_lt
        omega
      dsimp only
      split
      case h_1 => exact .ok _
      case h_2 result hres =>
        have hle := hlaw.length_le hres
        have hpos := hlaw.length_pos hres
        rw [if_neg (Nat.not_lt.mpr hle)]
        rw [List.length_drop] at hle
        apply (hlaw.failsOnly (by omega)).bind
        rintro ⟨ops, temps'⟩ hlift
        have htemps' := hlaw.temps_le hres hlift
        dsimp only
        split
        case isTrue => exact .ok _
        case isFalse => exact ih (by omega) (by omega) (by omega)

theorem processFunction_failsOnly (hlaw : backend.Lawful) (name : String) :
    FailsOnly .addressOverflow (processFunction backend name bytes base) := by
  apply (decodeLoop_failsOnly hlaw (Nat.zero_le _) (by omega) (by rfl)).bind
  exact fun _ _ => .ok _

def Backend.Lifts (backend : Backend I) : Prop :=
  ∀ i {address length temps}, temps.next.toNat + 1 < 2 ^ 64 →
    address.toNat + length + 2 ^ 31 ≤ 2 ^ 63 → ∃ r, backend.lift i address length temps = .ok r

section Room

variable (hlaw : backend.Lawful) (hlifts : backend.Lifts)
  (hroom : base.toNat + bytes.length + 2 ^ 31 ≤ 2 ^ 63)

include hlaw hlifts hroom

theorem exists_decodeLoop {fuel offset : ℕ} {temps : TempAllocator} {block : BasicBlock}
    (hoffset : offset ≤ bytes.length) (hfuel : bytes.length < offset + fuel)
    (htemps : 2 * temps.next.toNat ≤ offset) :
    ∃ b, decodeLoop backend bytes base fuel offset temps block = .ok b := by
  induction fuel generalizing offset temps block with
  | zero => omega
  | succ fuel ih =>
    have hadd : addU64 base offset = .ok (base + .ofNat offset) := if_pos (by omega)
    have haddr := addU64_eq_ok_iff.mp hadd
    unfold decodeLoop
    rw [hadd, Fallible.ok_bind]
    split
    case isTrue => exact ⟨_, rfl⟩
    case isFalse hend =>
      dsimp only
      split
      case h_1 => exact ⟨_, rfl⟩
      case h_2 result hres =>
        have hle := hlaw.length_le hres
        have hpos := hlaw.length_pos hres
        rw [if_neg (Nat.not_lt.mpr hle)]
        rw [List.length_drop] at hle
        obtain ⟨⟨ops, temps'⟩, hlift⟩ :=
          @hlifts result.instruction (base + .ofNat offset) result.length temps (by omega) (by omega)
        have htemps' := hlaw.temps_le hres hlift
        rw [hlift, Fallible.ok_bind]
        dsimp only
        split
        case isTrue => exact ⟨_, rfl⟩
        case isFalse => exact ih (by omega) (by omega) (by omega)

theorem exists_processFunction (name : String) :
    ∃ f, processFunction backend name bytes base = .ok f := by
  obtain ⟨block, hblock⟩ := @exists_decodeLoop _ _ _ _ hlaw hlifts hroom (bytes.length + 1) 0 .new
    (.new base) (Nat.zero_le _) (by omega) (by rfl)
  exact ⟨_, by rw [processFunction, hblock]; rfl⟩

end Room

theorem Arch.exists_processFunction (arch : Arch) (name : String) {bytes : List UInt8}
    {base : Address} (hroom : base.toNat + bytes.length + 2 ^ 31 ≤ 2 ^ 63) :
    ∃ f, arch.processFunction name bytes base = .ok f := by
  cases arch with
  | x86 =>
    exact Decompiler.exists_processFunction X86.lawful
      (fun i _ _ _ htemps haddr => X86.exists_lift i htemps haddr) hroom name
  | arm =>
    exact Decompiler.exists_processFunction Arm.lawful
      (fun i _ length temps _ haddr => Arm.exists_lift i length temps (by omega)) hroom name

/-- The recorded instructions lie one behind the other in the bytes. Each is the lift of what
is decoded at its own offset, and only the last of them returns. -/
structure Backend.Chains (backend : Backend I) (bytes : List UInt8) (base : Address)
    (lis : List LiftedInstruction) (offset : ℕ → ℕ) (temps : ℕ → TempAllocator) : Prop where
  address : ∀ i li, lis[i]? = some li → li.address.toNat = base.toNat + offset i
  decoded : ∀ i li, lis[i]? = some li → ∃ result,
    backend.disassembleOne (bytes.drop (offset i)) li.address = .ok result ∧
    backend.lift result.instruction li.address result.length (temps i) =
      .ok (li.ops, temps (i + 1)) ∧
    0 < result.length ∧ offset (i + 1) = offset i + result.length
  within : offset lis.length ≤ bytes.length
  ret_last : ∀ i li, lis[i]? = some li → .ret ∈ li.ops → i + 1 = lis.length

/-- The loop has a reason to stop behind the recorded instructions: a return, the end of the
bytes or bytes that are not decoded. -/
def Backend.Stops (backend : Backend I) (bytes : List UInt8) (base : Address)
    (lis : List LiftedInstruction) (offset : ℕ) : Prop :=
  (∃ li, lis.getLast? = some li ∧ .ret ∈ li.ops) ∨ offset = bytes.length ∨
    ∃ address e, address.toNat = base.toNat + offset ∧
      backend.disassembleOne (bytes.drop offset) address = .error e

/-- The recorded instructions tile the bytes from the first one on, with an offset and an
allocator of temporaries for each. -/
structure Backend.Tiles (backend : Backend I) (bytes : List UInt8) (base : Address)
    (lis : List LiftedInstruction) (offset : ℕ → ℕ) (temps : ℕ → TempAllocator) : Prop
    extends Chains backend bytes base lis offset temps where
  start : offset 0 = 0 ∧ temps 0 = .new
  sorted : (lis.map LiftedInstruction.address).Pairwise (· < ·)
  stops : backend.Stops bytes base lis (offset lis.length)

namespace Backend

variable {lis : List LiftedInstruction} {offset : ℕ → ℕ} {temps : ℕ → TempAllocator}

def before {α : Type} (a : α) (f : ℕ → α) : ℕ → α
  | 0 => a
  | i + 1 => f i

theorem Chains.nil {o : ℕ} (ho : o ≤ bytes.length) (t : TempAllocator) :
    backend.Chains bytes base [] (fun _ => o) fun _ => t :=
  ⟨nofun, nofun, ho, nofun⟩

theorem Chains.cons (hlaw : backend.Lawful) (h : backend.Chains bytes base lis offset temps)
    {o : ℕ} {t : TempAllocator} {li : LiftedInstruction} {length : ℕ}
    (hdec : DecodedAt backend bytes base o t li length (temps 0))
    (hoffset : offset 0 = o + length) (hret : .ret ∈ li.ops → lis = []) :
    backend.Chains bytes base (li :: lis) (before o offset) (before t temps) := by
  constructor
  case within => exact h.within
  case address =>
    rintro (_ | i) li' hli
    · obtain rfl := Option.some.inj hli
      exact addU64_eq_ok_iff.mp hdec.address
    · exact h.address i li' hli
  case decoded =>
    rintro (_ | i) li' hli
    · obtain rfl := Option.some.inj hli
      obtain ⟨result, hres, rfl, hlift⟩ := hdec.decoded
      exact ⟨result, hres, hlift, hlaw.length_pos hres, hoffset⟩
    · exact h.decoded i li' hli
  case ret_last =>
    rintro (_ | i) li' hli hmem
    · obtain rfl := Option.some.inj hli
      rw [hret hmem]
      rfl
    · exact congrArg Nat.succ (h.ret_last i li' hli hmem)

theorem Stops.cons {o : ℕ} (h : backend.Stops bytes base lis o) (li : LiftedInstruction) :
    backend.Stops bytes base (li :: lis) o := by
  rcases h with ⟨last, hlast, hmem⟩ | hrest
  · left
    refine ⟨last, ?_, hmem⟩
    rw [List.getLast?_cons, hlast]
    rfl
  · exact Or.inr hrest

end Backend

theorem Decodes.chains (hlaw : backend.Lawful) {o : ℕ} {t : TempAllocator}
    {lis : List LiftedInstruction} (h : Decodes backend bytes base o t lis)
    (ho : o ≤ bytes.length) : ∃ offset temps, offset 0 = o ∧ temps 0 = t ∧
      backend.Chains bytes base lis offset temps ∧
      backend.Stops bytes base lis (offset lis.length) := by
  induction h with
  | @stop o t hstop =>
    refine ⟨_, _, rfl, rfl, .nil ho t, Or.inr ?_⟩
    rcases hstop with hend | ⟨address, e, haddr, he⟩
    · exact Or.inl (le_antisymm ho hend)
    · exact Or.inr ⟨address, e, addU64_eq_ok_iff.mp haddr, he⟩
  | @last o n t t' li hdec hret =>
    have hnil : backend.Chains bytes base [] (fun _ => o + n) fun _ => t' :=
      .nil hdec.length_le t'
    exact ⟨_, _, rfl, rfl, hnil.cons hlaw hdec rfl fun _ => rfl, Or.inl ⟨li, rfl, hret⟩⟩
  | next hdec hret hrest ih =>
    obtain ⟨offset, temps, hoffset, rfl, hchain, hstop⟩ := ih hdec.length_le
    exact ⟨_, _, rfl, rfl, hchain.cons hlaw hdec hoffset fun hmem => absurd hmem hret,
      hstop.cons _⟩

/-- The decode loop ends. Unless an addition of addresses overflows, what it records tiles the
bytes up to a return, a decoding error or their end. -/
theorem processFunction_tiles_or_overflows (hlaw : backend.Lawful) (name : String) :
    processFunction backend name bytes base = .error .addressOverflow ∨ ∃ lis offset temps,
      processFunction backend name bytes base =
        .ok { Function.new name base with blocks := [⟨base, lis, [], []⟩] } ∧
      backend.Tiles bytes base lis offset temps := by
  rcases (processFunction_failsOnly hlaw name).eq_error_or_ok with herror | ⟨f, hf⟩
  · exact Or.inl herror
  · obtain ⟨lis, rfl, hdec⟩ := processFunction_decodes hf
    obtain ⟨offset, temps, hoffset, htemps, hchain, hstop⟩ := hdec.chains hlaw (Nat.zero_le _)
    exact Or.inr ⟨lis, offset, temps, hf, hchain, ⟨hoffset, htemps⟩, hdec.addresses_sorted hlaw,
      hstop⟩

def Arch.Tiles : Arch → List UInt8 → Address → List LiftedInstruction → Prop
  | .x86, bytes, base, lis => ∃ offset temps, X86.backend.Tiles bytes base lis offset temps
  | .arm, bytes, base, lis => ∃ offset temps, Arm.backend.Tiles bytes base lis offset temps

/-- Both architectures: the loop ends, and if no addition of addresses overflows, the recorded
instructions tile the bytes. -/
theorem Arch.processFunction_tiles (arch : Arch) (name : String) (bytes : List UInt8)
    (base : Address) : arch.processFunction name bytes base = .error .addressOverflow ∨
      ∃ lis, arch.processFunction name bytes base =
          .ok { Function.new name base with blocks := [⟨base, lis, [], []⟩] } ∧
        arch.Tiles bytes base lis := by
  cases arch with
  | x86 =>
    rcases processFunction_tiles_or_overflows X86.lawful name with h | ⟨lis, o, t, h, htiles⟩
    · exact Or.inl h
    · exact Or.inr ⟨lis, h, o, t, htiles⟩
  | arm =>
    rcases processFunction_tiles_or_overflows Arm.lawful name with h | ⟨lis, o, t, h, htiles⟩
    · exact Or.inl h
    · exact Or.inr ⟨lis, h, o, t, htiles⟩

end Decompiler
