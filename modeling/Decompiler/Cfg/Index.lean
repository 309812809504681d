import Decompiler.Cfg.Lifted
import Decompiler.Cfg.Maximal

/-! # The index behind the construction

The construction rebuilds the index together with the blocks, but not where it returns early:
an empty stream leaves no blocks behind, and the index as it was.
-/

namespace Decompiler

open Cfg

/-- Both lookups of an address find what a scan of the blocks finds: the only block that starts
there, if there is one. What is written through the mutable borrow replaces that block. -/
structure Function.LooksUp (f : Function) (a : Address) : Prop where
  blockAt : f.blockAt a = .ok (blockStarting f.blocks a)
  blockAtMut : (f.blockAtMut a).map (Option.map Prod.fst) = .ok (blockStarting f.blocks a)
  writes : ∀ b write, f.blockAtMut a = .ok (some (b, write)) → ∃ i, f.blocks[i]? = some b ∧
    b.startAddress = a ∧ ∀ b', write b' = { f with blocks := f.blocks.set i b' }
  unique : ∀ b ∈ f.blocks, b.startAddress = a → blockStarting f.blocks a = some b

namespace Cfg

variable {f : Function}

theorem looksUp_of_position (hnd : (f.blocks.map BasicBlock.startAddress).Nodup) {a : Address}
    {position : Option ℕ} (hat : f.blockAt a = .ok (blockStarting f.blocks a))
    (hmut : f.blockAtMut a = match position with
      | some i => (f.borrowBlock i).map some
      | none => .ok none)
    (hpos : ∀ i, position = some i ↔ startAt f.blocks i = some a) : f.LooksUp a := by
  have hunique : ∀ b ∈ f.blocks, b.startAddress = a → blockStarting f.blocks a = some b :=
    fun b hb hstart => (blockStarting_eq_some hnd).mpr ⟨hb, hstart⟩
  cases position with
  | none =>
    have hnone : blockStarting f.blocks a = none := by
      refine blockStarting_eq_none fun i hstart => ?_
      have hsome := (hpos i).mpr hstart
      cases hsome
    refine ⟨hat, by rw [hmut, hnone]; rfl, ?_, hunique⟩
    intro b write h
    rw [hmut] at h
    cases h
  | some i =>
    obtain ⟨b, hb, hstart⟩ := Option.map_eq_some_iff.mp ((hpos i).mp rfl)
    have hborrow : f.borrowBlock i =
        .ok (b, fun b' => { f with blocks := f.blocks.set i b' }) := by
      rw [Function.borrowBlock, index, hb]
      rfl
    dsimp only at hmut
    rw [hborrow] at hmut
    constructor
    case blockAt => exact hat
    case blockAtMut =>
      rw [hmut, hunique b (List.mem_of_getElem? hb) hstart]
      rfl
    case writes =>
      intro b' write h
      rw [hmut] at h
      obtain ⟨rfl, rfl⟩ := Prod.mk.inj (Option.some.inj (Except.ok.inj h))
      exact ⟨i, hb, hstart, fun _ => rfl⟩
    case unique => exact hunique

theorem findIdx?_eq_some {bs : List BasicBlock} (hnd : (bs.map BasicBlock.startAddress).Nodup)
    {a : Address} {i : ℕ} :
    bs.findIdx? (·.startAddress == a) = some i ↔ startAt bs i = some a := by
  rw [List.findIdx?_eq_some_iff_getElem, startAt, Option.map_eq_some_iff]
  constructor
  · rintro ⟨hi, hstart, -⟩
    exact ⟨bs[i], List.getElem?_eq_getElem hi, by simpa using hstart⟩
  · rintro ⟨b, hb, rfl⟩
    obtain ⟨hi, rfl⟩ := List.getElem?_eq_some_iff.mp hb
    refine ⟨hi, by simp, ?_⟩
    intro j hj hsame
    have hstarts : (bs.map BasicBlock.startAddress)[j]? = (bs.map BasicBlock.startAddress)[i]? := by
      rw [List.getElem?_map, List.getElem?_map, hb, List.getElem?_eq_getElem (hj.trans hi)]
      exact congrArg some (by simpa using hsame)
    have hji : j = i := (List.getElem?_inj (by simpa using hj.trans hi) hnd).mp hstarts
    omega

theorem looksUp_of_keys_eq_empty (hnd : (f.blocks.map BasicBlock.startAddress).Nodup)
    (hempty : f.blockIndex.keys = ∅) (a : Address) : f.LooksUp a :=
  looksUp_of_position hnd (if_pos hempty) (if_pos hempty) fun _ => findIdx?_eq_some hnd

theorem looksUp_rebuildIndex (hnd : (f.blocks.map BasicBlock.startAddress).Nodup) (a : Address) :
    f.rebuildIndex.LooksUp a := by
  by_cases hempty : f.rebuildIndex.blockIndex.keys = ∅
  · exact @looksUp_of_keys_eq_empty f.rebuildIndex hnd hempty a
  · exact @looksUp_of_position f.rebuildIndex hnd a _ (blockAt_rebuildIndex hnd a)
      (if_neg hempty) fun _ => lookup_startToIndex hnd

/-- An index that points anywhere leads every lookup of its keys out of an empty block list. -/
theorem not_looksUp_of_mem_keys (hblocks : f.blocks = []) {a : Address}
    (ha : a ∈ f.blockIndex.keys) : ¬ f.LooksUp a := by
  intro h
  have hat := h.blockAt
  rw [Function.blockAt, if_neg (Finset.ne_empty_of_mem ha)] at hat
  obtain ⟨i, hi⟩ := Option.isSome_iff_exists.mp
    (Finmap.lookup_isSome.mpr (Finmap.mem_keys.mp ha))
  rw [hi, hblocks] at hat
  cases hat

/-- The lookups agree with a scan behind the construction exactly if it had a stream to work on
or no index was there before. -/
theorem build_looksUp_iff (f : Function) (hnd : ((stream f).map LiftedInstruction.address).Nodup) :
    ∃ g, build f = .ok g ∧
      ((∀ a, g.LooksUp a) ↔ stream f ≠ [] ∨ f.blockIndex.keys = ∅) := by
  obtain ⟨bs, hcfg, hbuild⟩ := build_eq_ok f hnd
  refine ⟨_, hbuild, ?_⟩
  split
  case isTrue hstream =>
    have hblocks : bs = [] := by
      rw [hstream] at hcfg
      have hstarts := hcfg.split.starts_sublist
      simpa using hstarts
    constructor
    · intro hlooks
      right
      by_contra hne
      obtain ⟨a, ha⟩ := Finset.nonempty_iff_ne_empty.mpr hne
      exact @not_looksUp_of_mem_keys { f with blocks := bs } hblocks a ha (hlooks a)
    · rintro (hne | hempty) a
      · exact absurd hstream hne
      · have hnodup : (bs.map BasicBlock.startAddress).Nodup := by simp [hblocks]
        exact @looksUp_of_keys_eq_empty { f with blocks := bs } hnodup hempty a
  case isFalse hne =>
    constructor
    · exact fun _ => Or.inl hne
    · rintro - a
      exact @looksUp_rebuildIndex { f with blocks := bs } (hcfg.nodup_starts hnd) a

theorem build_looksUp_iff_jumpOver : ∃ g, build jumpOver = .ok g ∧
    ((∀ a, g.LooksUp a) ↔ stream jumpOver ≠ [] ∨ jumpOver.blockIndex.keys = ∅) :=
  build_looksUp_iff jumpOver (by decide)

def emptied : Function :=
  { Function.new "emptied" 0 with blocks := [.new 0] }.rebuildIndex

/-- The construction drops the block and keeps the index, so that the lookup of the entry
leaves the block list. -/
theorem not_looksUp_emptied : ((stream emptied).map LiftedInstruction.address).Nodup ∧
    ∃ g, build emptied = .ok g ∧ g.blockAt 0 = .error .outOfBounds ∧ ¬ ∀ a, g.LooksUp a := by
  have hat : { emptied with blocks := [] }.blockAt 0 = .error .outOfBounds := by decide +kernel
  refine ⟨by decide, _, rfl, hat, fun h => ?_⟩
  have hlooks := (h 0).blockAt
  rw [hat] at hlooks
  cases hlooks

end Cfg

end Decompiler
