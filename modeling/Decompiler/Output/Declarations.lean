import Mathlib.Algebra.Group.Nat.Defs
import Decompiler.Library.Fallible
import Decompiler.Output.C

/-! # The emitted declarations

The assigned registers and temporaries are collected in a list that is sorted by
location, so that each location is declared once, by the first destination there.
-/

namespace Decompiler.Output

def spaceRank : AddressSpace → ℕ
  | .register => 0
  | .memory => 1
  | .constant => 2
  | .unique => 3

def rank (l : Location) : ℕ := (spaceRank l.space * 2 ^ 64 + l.offset.toNat) * 2 ^ 8 + l.size.toNat

theorem keyBefore_iff (a b : Location) : keyBefore a b = true ↔ rank a < rank b := by
  have ha := a.offset.toNat_lt
  have hb := b.offset.toNat_lt
  have ha' := a.size.toNat_lt
  have hb' := b.size.toNat_lt
  have hspace : compare a.space b.space = compare (spaceRank a.space) (spaceRank b.space) := by
    cases a.space <;> cases b.space <;> rfl
  simp only [keyBefore, hspace, rank]
  split
  case h_1 hlt =>
    rw [Nat.compare_eq_lt] at hlt
    simp only [true_iff]
    omega
  case h_2 hgt =>
    rw [Nat.compare_eq_gt] at hgt
    simp only [Bool.false_eq_true, false_iff]
    omega
  case h_3 heq =>
    rw [Nat.compare_eq_eq] at heq
    simp only [Bool.or_eq_true, Bool.and_eq_true, decide_eq_true_eq, beq_iff_eq,
      UInt64.lt_iff_toNat_lt, UInt8.lt_iff_toNat_lt, ← UInt64.toNat_inj, heq]
    omega

theorem rank_injective {a b : Location} (h : rank a = rank b) : a = b := by
  have ha := a.offset.toNat_lt
  have hb := b.offset.toNat_lt
  have ha' := a.size.toNat_lt
  have hb' := b.size.toNat_lt
  obtain ⟨sa, oa, za⟩ := a
  obtain ⟨sb, ob, zb⟩ := b
  simp only [rank] at h ha hb ha' hb'
  have hspace : spaceRank sa = spaceRank sb := by omega
  obtain rfl : sa = sb := by
    cases sa <;> cases sb <;> first | rfl | cases hspace
  obtain rfl : oa = ob := UInt64.toNat_inj.mp (by omega)
  obtain rfl : za = zb := UInt8.toNat_inj.mp (by omega)
  rfl

def Sorted (seen : List Varnode) : Prop :=
  seen.Pairwise fun a b => rank a.location < rank b.location

theorem mem_orInsert {dest v : Varnode} {seen : List Varnode} (h : v ∈ orInsert dest seen) :
    v = dest ∨ v ∈ seen := by
  induction seen with
  | nil => exact Or.inl (List.mem_singleton.mp h)
  | cons w seen ih =>
    rw [orInsert] at h
    split at h
    · exact Or.inr h
    · split at h
      · exact List.mem_cons.mp h
      · rcases List.mem_cons.mp h with rfl | h
        · exact Or.inr List.mem_cons_self
        · exact (ih h).imp_right (List.mem_cons_of_mem w)

theorem exists_mem_orInsert (dest : Varnode) {l : Location} {seen : List Varnode}
    (h : l = dest.location ∨ ∃ v ∈ seen, v.location = l) :
    ∃ v ∈ orInsert dest seen, v.location = l := by
  induction seen with
  | nil =>
    rcases h with rfl | ⟨v, hv, -⟩
    · exact ⟨dest, List.mem_singleton_self dest, rfl⟩
    · cases hv
  | cons w seen ih =>
    rw [orInsert]
    split
    case isTrue heq =>
      rcases h with rfl | h
      · exact ⟨w, List.mem_cons_self, heq⟩
      · exact h
    case isFalse =>
      split
      case isTrue =>
        rcases h with rfl | ⟨v, hv, hl⟩
        · exact ⟨dest, List.mem_cons_self, rfl⟩
        · exact ⟨v, List.mem_cons_of_mem dest hv, hl⟩
      case isFalse =>
        by_cases hw : w.location = l
        · exact ⟨w, List.mem_cons_self, hw⟩
        · obtain ⟨v, hv, hl⟩ := ih (h.imp_right fun ⟨v, hv, hl⟩ =>
            ⟨v, (List.mem_cons.mp hv).resolve_left (by rintro rfl; exact hw hl), hl⟩)
          exact ⟨v, List.mem_cons_of_mem w hv, hl⟩

theorem Sorted.orInsert {seen : List Varnode} (h : Sorted seen) (dest : Varnode) :
    Sorted (orInsert dest seen) := by
  induction seen with
  | nil => exact List.pairwise_singleton _ dest
  | cons w seen ih =>
    obtain ⟨hw, hseen⟩ := List.pairwise_cons.mp h
    rw [Output.orInsert]
    split
    case isTrue => exact h
    case isFalse hne =>
      split
      case isTrue hbefore =>
        have hlt : rank dest.location < rank w.location := (keyBefore_iff _ _).mp hbefore
        refine List.pairwise_cons.mpr ⟨?_, h⟩
        intro v hv
        rcases List.mem_cons.mp hv with rfl | hv
        · exact hlt
        · exact hlt.trans (hw v hv)
      case isFalse hbefore =>
        have hge : rank w.location ≤ rank dest.location :=
          Nat.le_of_not_lt fun hlt => hbefore ((keyBefore_iff _ _).mpr hlt)
        have hlt : rank w.location < rank dest.location :=
          Nat.lt_of_le_of_ne hge fun heq => hne (rank_injective heq)
        refine List.pairwise_cons.mpr ⟨?_, ih hseen⟩
        intro v hv
        rcases mem_orInsert hv with rfl | hv
        · exact hlt
        · exact hw v hv

/-- A varnode that is declared when an operation assigns it. -/
def Declarable (v : Varnode) : Prop := v.space = .register ∨ v.space = .unique

instance decidableDeclarable (v : Varnode) : Decidable (Declarable v) :=
  inferInstanceAs (Decidable (_ ∨ _))

/-- Some operation assigns the location, a register or a temporary. -/
def Assigned (ops : List Instruction) (l : Location) : Prop :=
  ∃ op ∈ ops, ∃ dest, op.opDest = some dest ∧ Declarable dest ∧ dest.location = l

def declared (ops : List Instruction) : List Varnode := ops.foldl seeDest []

theorem declared_concat (ops : List Instruction) (op : Instruction) :
    declared (ops ++ [op]) = seeDest (declared ops) op := by
  simp [declared]

theorem sorted_declared (ops : List Instruction) : Sorted (declared ops) := by
  induction ops using List.reverseRecOn with
  | nil => exact List.Pairwise.nil
  | append_singleton ops op ih =>
    rw [declared_concat, seeDest]
    split
    · split
      · exact ih.orInsert _
      · exact ih
    · exact ih

theorem nodup_declared (ops : List Instruction) : ((declared ops).map Varnode.location).Nodup :=
  List.pairwise_map.mpr ((sorted_declared ops).imp fun hlt heq => by simp [heq] at hlt)

theorem exists_of_mem_declared {ops : List Instruction} {v : Varnode} (h : v ∈ declared ops) :
    ∃ op ∈ ops, op.opDest = some v ∧ Declarable v := by
  induction ops using List.reverseRecOn with
  | nil => cases h
  | append_singleton ops op ih =>
    have hold : v ∈ declared ops → ∃ o ∈ ops ++ [op], o.opDest = some v ∧ Declarable v := by
      intro hv
      obtain ⟨o, ho, hdest⟩ := ih hv
      exact ⟨o, List.mem_append_left _ ho, hdest⟩
    rw [declared_concat, seeDest] at h
    split at h
    case h_1 dest hdest =>
      split at h
      case isTrue hspace =>
        rcases mem_orInsert h with rfl | h
        · exact ⟨op, by simp, hdest, hspace⟩
        · exact hold h
      case isFalse => exact hold h
    case h_2 => exact hold h

theorem exists_mem_declared {ops : List Instruction} {l : Location} :
    (∃ v ∈ declared ops, v.location = l) ↔ Assigned ops l := by
  constructor
  · rintro ⟨v, hv, rfl⟩
    obtain ⟨op, hop, hdest, hspace⟩ := exists_of_mem_declared hv
    exact ⟨op, hop, v, hdest, hspace, rfl⟩
  · rintro ⟨op, hop, dest, hdest, hspace, rfl⟩
    induction ops using List.reverseRecOn with
    | nil => cases hop
    | append_singleton ops last ih =>
      rw [declared_concat, seeDest]
      rcases List.mem_append.mp hop with hop | hop
      · split
        · split
          · exact exists_mem_orInsert _ (Or.inr (ih hop))
          · exact ih hop
        · exact ih hop
      · obtain rfl := List.mem_singleton.mp hop
        rw [hdest]
        simp only [show dest.space = .register ∨ dest.space = .unique from hspace, if_true]
        exact exists_mem_orInsert dest (Or.inl rfl)

instance decidableAssigned (ops : List Instruction) (l : Location) : Decidable (Assigned ops l) :=
  decidable_of_iff (∃ v ∈ declared ops, v.location = l) exists_mem_declared

def declaredCtype (types : Finmap fun _ : Location => DataType) (v : Varnode) : String :=
  match types.lookup v.location with
  | some dt => formatType dt
  | none => unsignedCtype v.size

theorem declaration_eq (types : Finmap fun _ : Location => DataType) (v : Varnode) :
    declaration types v = do return declaredCtype types v ++ " " ++ (← varName v) := by
  unfold declaration declaredCtype
  cases types.lookup v.location <;> rfl

end Decompiler.Output
