import Decompiler.Cli.Temporaries
import Decompiler.Output.Declarations

/-! # Names of registers and temporaries

Registers have names of their own, and a temporary is named by its offset. In operations that
use the registers of one architecture, and assign every temporary that they read and none of
them twice, the declared names are the names of the assigned locations.
-/

namespace Decompiler.Output

def nameOf (v : Varnode) : String :=
  if v.space = .unique then "t" ++ toString v.offset.toNat
  else v.name.getD ("reg_0x" ++ hex v.offset)

theorem varName_eq_nameOf {v : Varnode} (h : Declarable v) : varName v = .ok (nameOf v) := by
  rcases h with h | h <;> simp [varName, nameOf, h]

theorem offset_eq_of_nameOf {v w : Varnode} (hv : v.space = .unique) (hw : w.space = .unique)
    (h : nameOf v = nameOf w) : v.offset = w.offset := by
  simp only [nameOf, hv, hw, if_true] at h
  have hchars := congrArg String.toList h
  rw [String.toList_append, String.toList_append, List.append_cancel_left_eq] at hchars
  have hdigits : Nat.toDigits 10 v.offset.toNat = Nat.toDigits 10 w.offset.toNat := by
    rwa [← Nat.toList_repr, ← Nat.toList_repr]
  have hvalue := congrArg (Nat.ofDigitChars 10 · 0) hdigits
  rw [Nat.ofDigitChars_ten_toDigits, Nat.ofDigitChars_ten_toDigits] at hvalue
  exact UInt64.toNat_inj.mp hvalue

/-- The registers of an architecture: each has a name of its own that is not that of a
temporary. -/
structure RegisterFile (regs : List Varnode) : Prop where
  register : ∀ v ∈ regs, v.space = .register
  name : ∀ v ∈ regs, ∃ s, v.name = some s ∧ s.toList.head? ≠ some 't'
  nodup_names : (regs.map Varnode.name).Nodup
  nodup_locations : (regs.map Varnode.location).Nodup

namespace RegisterFile

variable {regs : List Varnode} (h : RegisterFile regs) {v w : Varnode}

include h

theorem eq_of_location (hv : v ∈ regs) (hw : w ∈ regs) (heq : v.location = w.location) : v = w :=
  List.inj_on_of_nodup_map h.nodup_locations hv hw heq

theorem eq_of_nameOf (hv : v ∈ regs) (hw : w ∈ regs) (heq : nameOf v = nameOf w) : v = w := by
  obtain ⟨s, hs, -⟩ := h.name v hv
  obtain ⟨t, ht, -⟩ := h.name w hw
  apply List.inj_on_of_nodup_map h.nodup_names hv hw
  simp only [nameOf, h.register v hv, h.register w hw, reduceCtorEq, if_false, hs, ht,
    Option.getD_some] at heq
  rw [hs, ht, heq]

theorem nameOf_ne (hv : v ∈ regs) (hw : w.space = .unique) : nameOf v ≠ nameOf w := by
  obtain ⟨s, hs, hhead⟩ := h.name v hv
  intro heq
  simp only [nameOf, h.register v hv, reduceCtorEq, if_false, hs, Option.getD_some, hw,
    if_true] at heq
  subst heq
  simp at hhead

end RegisterFile

def Known (regs : List Varnode) (v : Varnode) : Prop := v ∈ regs ∨ v.space = .unique

/-- The operation assigns a register or temporary, and reads such and literals. -/
structure Uses (regs : List Varnode) (op : Instruction) : Prop where
  dest : ∀ v, op.opDest = some v → Known regs v
  operand : ∀ v ∈ op.operands, v.space = .constant ∨ Known regs v

/-- Operations over the registers of one architecture, in which each temporary is assigned once
and none is read that is not assigned. -/
structure WellNamed (regs : List Varnode) (ops : List Instruction) : Prop where
  uses : ∀ op ∈ ops, Uses regs op
  single : (assignedTemps ops).Nodup
  assigned : ∀ op ∈ ops, ∀ v ∈ op.operands, v.space = .unique → Assigned ops v.location

theorem eq_of_assignedTemp {ops : List Instruction} (h : (assignedTemps ops).Nodup)
    {op op' : Instruction} (hop : op ∈ ops) (hop' : op' ∈ ops) {t : UInt64}
    (ht : op.assignedTemp = some t) (ht' : op'.assignedTemp = some t) : op = op' := by
  rw [assignedTemps, List.Nodup, List.pairwise_filterMap] at h
  by_contra hne
  have : Std.Symm fun a b : Instruction =>
      ∀ t, a.assignedTemp = some t → ∀ t', b.assignedTemp = some t' → t ≠ t' :=
    ⟨fun a b hab t ht t' ht' heq => hab t' ht' t ht heq.symm⟩
  exact h.forall hop hop' hne t ht t ht' rfl

namespace WellNamed

variable {regs : List Varnode} {ops : List Instruction} (h : WellNamed regs ops)
  (hregs : RegisterFile regs) {v w : Varnode}

include h hregs

theorem eq_of_nameOf (hv : v ∈ declared ops) (hw : w ∈ declared ops)
    (heq : nameOf v = nameOf w) : v = w := by
  obtain ⟨op, hop, hdest, -⟩ := exists_of_mem_declared hv
  obtain ⟨op', hop', hdest', -⟩ := exists_of_mem_declared hw
  rcases (h.uses op hop).dest v hdest with hv' | hv' <;>
    rcases (h.uses op' hop').dest w hdest' with hw' | hw'
  · exact hregs.eq_of_nameOf hv' hw' heq
  · exact absurd heq (hregs.nameOf_ne hv' hw')
  · exact absurd heq.symm (hregs.nameOf_ne hw' hv')
  · have hoff := offset_eq_of_nameOf hv' hw' heq
    have htemp : op.assignedTemp = some v.offset := by
      simp [Instruction.assignedTemp, hdest, hv']
    have htemp' : op'.assignedTemp = some v.offset := by
      simp [Instruction.assignedTemp, hdest', hw', hoff]
    obtain rfl := eq_of_assignedTemp h.single hop hop' htemp htemp'
    exact Option.some.inj (hdest.symm.trans hdest')

theorem nodup_names : ((declared ops).map nameOf).Nodup :=
  ((nodup_declared ops).of_map _).map_on fun _ hv _ hw heq => h.eq_of_nameOf hregs hv hw heq

theorem nameOf_mem_iff (hv : Known regs v)
    (hassigned : v.space = .unique → Assigned ops v.location) :
    nameOf v ∈ (declared ops).map nameOf ↔ Assigned ops v.location := by
  constructor
  · intro hmem
    obtain ⟨w, hw, heq⟩ := List.mem_map.mp hmem
    obtain ⟨op, hop, hdest, hdecl⟩ := exists_of_mem_declared hw
    rcases hv with hv | hv
    · rcases (h.uses op hop).dest w hdest with hw' | hw'
      · obtain rfl := hregs.eq_of_nameOf hw' hv heq
        exact ⟨op, hop, w, hdest, hdecl, rfl⟩
      · exact absurd heq.symm (hregs.nameOf_ne hv hw')
    · exact hassigned hv
  · intro hassign
    obtain ⟨w, hw, hloc⟩ := exists_mem_declared.mpr hassign
    obtain ⟨op, hop, hdest, -⟩ := exists_of_mem_declared hw
    have heq : nameOf w = nameOf v := by
      rcases hv with hv | hv
      · have hspace : w.space = .register := by
          have hspace := congrArg Location.space hloc
          rwa [hregs.register v hv] at hspace
        rcases (h.uses op hop).dest w hdest with hw' | hw'
        · rw [hregs.eq_of_location hw' hv hloc]
        · rw [hspace] at hw'
          cases hw'
      · have hspace : w.space = .unique := (congrArg Location.space hloc).trans hv
        have hoff : w.offset = v.offset := congrArg Location.offset hloc
        simp only [nameOf, hspace, hv, hoff, if_true]
    exact List.mem_map.mpr ⟨w, hw, heq⟩

theorem count_nameOf (hv : Known regs v)
    (hassigned : v.space = .unique → Assigned ops v.location) :
    ((declared ops).map nameOf).count (nameOf v) = if Assigned ops v.location then 1 else 0 := by
  rw [(h.nodup_names hregs).count]
  exact if_congr (h.nameOf_mem_iff hregs hv hassigned) rfl rfl

end WellNamed

end Decompiler.Output
