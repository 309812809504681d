import Decompiler.Output.C
import Decompiler.Types.Constraints

/-! # C types of the emitted code

Sizes of C types, read off their text: `uintN_t` has `N / 8` bytes and a pointer eight. The
pointee of an inferred pointer has the width of the access through which the
pointer was found.
-/

namespace Decompiler.Output

open Decompiler.Types

def ctypeBytes (ct : String) : Option ℕ :=
  if ct.toList.getLast? = some '*' then some 8
  else if ct = "uint8_t" then some 1
  else if ct = "uint16_t" then some 2
  else if ct = "uint32_t" then some 4
  else if ct = "uint64_t" then some 8
  else none

def wordBytes (size : UInt8) : ℕ :=
  match size.toNat with
  | 1 => 1
  | 2 => 2
  | 4 => 4
  | _ => 8

theorem ctypeBytes_pointer (ct : String) : ctypeBytes (ct ++ "*") = some 8 := by
  simp [ctypeBytes]

theorem ctypeBytes_unsignedCtype (size : UInt8) :
    ctypeBytes (unsignedCtype size) = some (wordBytes size) := by
  unfold unsignedCtype wordBytes
  split
  case h_1 h | h_2 h | h_3 h | h_4 h =>
    rw [h]
    rfl
  case h_5 h1 h2 h4 h8 =>
    split
    · contradiction
    · contradiction
    · contradiction
    · rfl

theorem wordBytes_of_mem {size : UInt8} (h : size.toNat ∈ [1, 2, 4, 8]) :
    wordBytes size = size.toNat := by
  simp only [List.mem_cons, List.not_mem_nil, or_false] at h
  rcases h with h | h | h | h <;> simp [wordBytes, h]

/-- The bytes behind an inferred pointer: those of the access that made it a pointer, or of
a pointer when the accessed varnode was one. Other operations pass the pointee on. -/
inductive Pointee (ops : List Instruction) : Location → ℕ → Prop
  | word {h op l v} : Enters ops h op l → accessed op = some v → v.location ∉ rules.reached h →
      Pointee ops l (wordBytes v.size)
  | pointer {h op l v} : Enters ops h op l → accessed op = some v →
      v.location ∈ rules.reached h → Pointee ops l 8
  | passed {h op l v bytes} : Enters ops h op l → Passes (rules.reached h) op v →
      Pointee ops v.location bytes → Pointee ops l bytes

variable {ops : List Instruction} {types : TypeMap} {l : Location} {bytes : ℕ}

def PointsTo (types : TypeMap) (l : Location) (bytes : ℕ) : Prop :=
  ∃ inner, types.lookup l = some (.pointer inner) ∧ ctypeBytes (formatType inner) = some bytes

theorem PointsTo.unique {bytes' : ℕ} (h : PointsTo types l bytes) (h' : PointsTo types l bytes') :
    bytes = bytes' := by
  obtain ⟨inner, hinner, hbytes⟩ := h
  obtain ⟨inner', hinner', hbytes'⟩ := h'
  obtain rfl := DataType.pointer.inj (Option.some.inj (hinner.symm.trans hinner'))
  exact Option.some.inj (hbytes.symm.trans hbytes')

theorem ctypeBytes_accessType (hp : AllPointers types) (v : Varnode) :
    ctypeBytes (formatType (accessType types v)) =
      some (if v.location ∈ types then 8 else wordBytes v.size) := by
  by_cases hv : v.location ∈ types
  · obtain ⟨t, ht⟩ := Finmap.mem_iff.mp hv
    obtain ⟨inner, rfl⟩ := hp _ _ ht
    rw [if_pos hv, accessType_of_lookup ht, formatType, ctypeBytes_pointer]
  · rw [if_neg hv, accessType, Finmap.lookup_eq_none.mpr hv]
    exact ctypeBytes_unsignedCtype v.size

theorem Pointee.pointsTo (hi : Inferred ops types) (h : Pointee ops l bytes) :
    PointsTo types l bytes := by
  induction h with
  | @word h op l v he hv hnew =>
    have hnot : v.location ∉ after h := fun hmem => hnew (mem_typed_after.mp hmem)
    refine ⟨_, hi.lookup_enters_access he hv, ?_⟩
    rw [ctypeBytes_accessType (inferAll_pointers h).1, if_neg hnot]
  | @pointer h op l v he hv hknown =>
    have hmem : v.location ∈ after h := mem_typed_after.mpr hknown
    refine ⟨_, hi.lookup_enters_access he hv, ?_⟩
    rw [ctypeBytes_accessType (inferAll_pointers h).1, if_pos hmem]
  | passed he hv _ ih =>
    obtain ⟨inner, hinner, hbytes⟩ := ih
    exact ⟨inner, by rw [hi.lookup_enters_passes he hv, hinner], hbytes⟩

theorem exists_pointee (hi : Inferred ops types) (hl : l ∈ types) :
    ∃ bytes, Pointee ops l bytes := by
  obtain ⟨h, hh, hreached⟩ := hi.mem_iff.mp hl
  refine History.induction (P := fun l => ∃ bytes, Pointee ops l bytes) ?_ hh l hreached
  intro h op l he ih
  rcases exists_passes he.introduces.fires with ⟨v, hv⟩ | ⟨v, hv⟩
  · by_cases hknown : v.location ∈ rules.reached h
    · exact ⟨8, .pointer he hv hknown⟩
    · exact ⟨_, .word he hv hknown⟩
  · obtain ⟨bytes, hbytes⟩ := ih _ hv.mem
    exact ⟨bytes, .passed he hv hbytes⟩

/-- The size behind an inferred pointer, told by the program alone. -/
theorem pointsTo_iff (hi : Inferred ops types) : PointsTo types l bytes ↔ Pointee ops l bytes := by
  constructor
  · intro h
    obtain ⟨inner, hinner, -⟩ := id h
    obtain ⟨bytes', hbytes'⟩ := exists_pointee hi (Finmap.mem_iff.mpr ⟨_, hinner⟩)
    rwa [h.unique (hbytes'.pointsTo hi)]
  · exact Pointee.pointsTo hi

/-- The C type of an access is that of the pointee of its address, and the accessed varnode's
own if the address is not a pointer. -/
theorem ctypeBytes_accessCtype (hi : Inferred ops types) (addr accessed : Varnode) :
    ctypeBytes (accessCtype types addr accessed) = some bytes ↔
      Pointee ops addr.location bytes ∨
        addr.location ∉ pointers ops ∧ wordBytes accessed.size = bytes := by
  rw [← pointsTo_iff hi, ← hi.typed_eq, accessCtype]
  cases haddr : types.lookup addr.location with
  | none =>
    have hnot : addr.location ∉ typed types := Finmap.lookup_eq_none.mp haddr
    simp [ctypeBytes_unsignedCtype, PointsTo, haddr, hnot]
  | some t =>
    obtain ⟨inner, rfl⟩ := hi.allPointers _ _ haddr
    have hmem : addr.location ∈ typed types := mem_typed_iff.mpr ⟨_, haddr⟩
    simp [PointsTo, haddr, hmem]

end Decompiler.Output
