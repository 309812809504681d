import Decompiler.Cfg.Lifted
import Decompiler.Library.DepthFirst
import Decompiler.Structurer.Region

/-! # Back edges

The search of the structurer is a depth-first search of the graph. Back edges are
edges of the graph, and every reachable block is reached without them.
-/

namespace Decompiler.Structurer

open Cfg

def successorsOf (bs : List BasicBlock) (a : Address) : List Address :=
  (blockStarting bs a).elim [] BasicBlock.successors

def Edge (bs : List BasicBlock) (a b : Address) : Prop := b ∈ successorsOf bs a

def Reachable (g : Function) : Address → Prop := Relation.ReflTransGen (Edge g.blocks) g.entry

def DfsState.ofSearch (st : DepthFirst.State Address) : DfsState :=
  ⟨st.visited, st.inStack, st.back⟩

namespace DfsState

def enter (st : DfsState) (addr : Address) : DfsState :=
  { st with visited := insert addr st.visited, inStack := insert addr st.inStack }

def record (st : DfsState) (addr succ : Address) : DfsState :=
  { st with backEdges := insert (addr, succ) st.backEdges }

def leave (st : DfsState) (addr : Address) : DfsState :=
  { st with inStack := st.inStack.erase addr }

end DfsState

/-- The body of the loop over the successors. -/
def followEdge (f : Function) (fuel : ℕ) (addr : Address) (st : DfsState) (succ : Address) :
    Except Fault DfsState :=
  if succ ∈ st.inStack then .ok (st.record addr succ) else dfsBackEdges f fuel succ st

theorem blockAt_eq_error {f : Function} {a : Address} {e : Fault} (h : f.blockAt a = .error e) :
    e = .outOfBounds := by
  unfold Function.blockAt at h
  split at h
  case isTrue => cases h
  case isFalse =>
    split at h
    case h_1 i _ =>
      unfold index at h
      split at h
      case h_1 => cases h
      case h_2 => exact (Except.error.inj h).symm
    case h_2 => cases h

theorem blockAt_cases {f : Function} {a : Address} {b : BasicBlock}
    (h : f.blockAt a = .ok (some b)) :
    (f.blockIndex.keys = ∅ ∧ b ∈ f.blocks ∧ b.startAddress = a) ∨
      ∃ i, f.blockIndex.lookup a = some i ∧ f.blocks[i]? = some b := by
  unfold Function.blockAt at h
  split at h
  case isTrue hkeys =>
    have hfind := Except.ok.inj h
    exact Or.inl ⟨hkeys, List.mem_of_find?_eq_some hfind, by simpa using List.find?_some hfind⟩
  case isFalse =>
    split at h
    case h_1 i hi =>
      unfold index at h
      split at h
      case h_1 c hc =>
        obtain rfl := Option.some.inj (Except.ok.inj h)
        exact Or.inr ⟨i, hi, hc⟩
      case h_2 => cases h
    case h_2 => cases h

theorem mem_of_blockAt {f : Function} {a : Address} {b : BasicBlock}
    (h : f.blockAt a = .ok (some b)) : b ∈ f.blocks := by
  rcases blockAt_cases h with ⟨-, hmem, -⟩ | ⟨i, -, hi⟩
  · exact hmem
  · exact List.mem_of_getElem? hi

def found (f : Function) (a : Address) : Option BasicBlock :=
  match f.blockAt a with
  | .ok b => b
  | .error _ => none

def nextOf (f : Function) (a : Address) : List Address :=
  (found f a).elim [] BasicBlock.successors

/-- A lookup outside the block list has stopped the computation. -/
def LookupFails {α : Type} (f : Function) (x : Except Fault α) : Prop :=
  ∃ a, f.blockAt a = .error .outOfBounds ∧ x = .error .outOfBounds

section Search

variable (f : Function)

theorem blockAt_found (a : Address) :
    f.blockAt a = .error .outOfBounds ∨ f.blockAt a = .ok (found f a) := by
  unfold found
  cases h : f.blockAt a with
  | ok b => exact Or.inr rfl
  | error e => exact Or.inl (congrArg Except.error (blockAt_eq_error h))

variable {f}

theorem blockAt_of_found {a : Address} {b : BasicBlock} (h : found f a = some b) :
    f.blockAt a = .ok (some b) := by
  rcases blockAt_found f a with hfail | hat
  · simp [found, hfail] at h
  · rw [hat, h]

theorem LookupFails.bind {α β : Type} {x : Except Fault α} (h : LookupFails f x)
    (k : α → Except Fault β) : LookupFails f (x >>= k) := by
  obtain ⟨a, ha, rfl⟩ := h
  exact ⟨a, ha, rfl⟩

theorem foldlM_map {α σ τ : Type} (h : σ → τ) {k : σ → α → Except Fault σ}
    {g : τ → α → Except Fault τ}
    (hkg : ∀ s a, LookupFails f (g (h s) a) ∨ g (h s) a = (k s a).map h) (l : List α) (s : σ) :
    LookupFails f (l.foldlM g (h s)) ∨ l.foldlM g (h s) = (l.foldlM k s).map h := by
  induction l generalizing s with
  | nil => exact Or.inr rfl
  | cons a l ih =>
    rw [List.foldlM_cons, List.foldlM_cons]
    rcases hkg s a with hfail | heq
    · exact Or.inl (hfail.bind _)
    · rw [heq]
      cases k s a with
      | error e => exact Or.inr rfl
      | ok s' => exact ih s'

section Calls

variable {addr : Address} {st : DfsState}

theorem dfsBackEdges_of_mem (fuel : ℕ) (h : addr ∈ st.visited) :
    dfsBackEdges f (fuel + 1) addr st = .ok st := by
  rw [dfsBackEdges, if_pos h]
  rfl

theorem dfsBackEdges_of_error (fuel : ℕ) (hnew : addr ∉ st.visited)
    (hat : f.blockAt addr = .error .outOfBounds) :
    dfsBackEdges f (fuel + 1) addr st = .error .outOfBounds := by
  rw [dfsBackEdges, if_neg hnew, hat]
  rfl

theorem dfsBackEdges_of_ok (fuel : ℕ) (hnew : addr ∉ st.visited)
    (hat : f.blockAt addr = .ok (found f addr)) :
    dfsBackEdges f (fuel + 1) addr st =
      ((nextOf f addr).foldlM (followEdge f fuel addr) (st.enter addr)) >>= fun st =>
        .ok (st.leave addr) := by
  rw [dfsBackEdges, if_neg hnew, hat, nextOf]
  cases found f addr <;> rfl

end Calls

/-- The search of the structurer is the depth-first search, up to a lookup that fails. -/
theorem dfsBackEdges_eq (fuel : ℕ) (a : Address) (st : DepthFirst.State Address) :
    LookupFails f (dfsBackEdges f fuel a (.ofSearch st)) ∨
      dfsBackEdges f fuel a (.ofSearch st) =
        (DepthFirst.visit .outOfFuel (nextOf f) fuel a st).map .ofSearch := by
  induction fuel generalizing a st with
  | zero => exact Or.inr rfl
  | succ fuel ih =>
    rw [DepthFirst.visit]
    by_cases ha : a ∈ st.visited
    · rw [if_pos ha, dfsBackEdges_of_mem fuel (show a ∈ (DfsState.ofSearch st).visited from ha)]
      exact Or.inr rfl
    have hnew : a ∉ (DfsState.ofSearch st).visited := ha
    rw [if_neg ha]
    rcases blockAt_found f a with hfail | hat
    · rw [dfsBackEdges_of_error fuel hnew hfail]
      exact Or.inl ⟨a, hfail, rfl⟩
    rw [dfsBackEdges_of_ok fuel hnew hat]
    have hloop := foldlM_map (f := f) DfsState.ofSearch
      (k := fun st b => if b ∈ st.inStack then .ok (st.record a b)
        else DepthFirst.visit .outOfFuel (nextOf f) fuel b st)
      (g := followEdge f fuel a)
      (fun st b => by
        have hmem : b ∈ (DfsState.ofSearch st).inStack ↔ b ∈ st.inStack := Iff.rfl
        by_cases hb : b ∈ st.inStack
        · rw [followEdge, if_pos hb, if_pos (hmem.mpr hb)]
          exact Or.inr rfl
        · rw [followEdge, if_neg hb, if_neg (hmem.not.mpr hb)]
          exact ih b st)
      (nextOf f a) (st.enter a)
    rcases hloop with hfail | hloop
    · exact Or.inl (hfail.bind _)
    right
    refine (congrArg (fun x => x >>= fun st => Except.ok (st.leave a)) hloop).trans ?_
    cases (nextOf f a).foldlM (fun st b => if b ∈ st.inStack then .ok (st.record a b)
      else DepthFirst.visit Fault.outOfFuel (nextOf f) fuel b st) (st.enter a) with
    | error e => rfl
    | ok s => rfl

/-- The search fails at a lookup, or it succeeds and has visited the entry. -/
theorem exists_search (f : Function) : LookupFails f (findBackEdges f) ∨
    ∃ st : DepthFirst.State Address, findBackEdges f = .ok st.back ∧
      DepthFirst.Visited (nextOf f) f.entry .empty st := by
  set U := insert f.entry (f.blocks.flatMap BasicBlock.successors).toFinset with hU
  have hclosed : ∀ a ∈ U, ∀ c ∈ nextOf f a, c ∈ U := by
    intro a _ c hc
    rw [hU, Finset.mem_insert, List.mem_toFinset, List.mem_flatMap]
    cases hb : found f a with
    | none => simp [nextOf, hb] at hc
    | some b =>
      rw [nextOf, hb, Option.elim_some] at hc
      exact Or.inr ⟨b, mem_of_blockAt (blockAt_of_found hb), hc⟩
  have hfuel : (U \ (DepthFirst.State.empty : DepthFirst.State Address).visited).card <
      (f.blocks.flatMap BasicBlock.successors).length + 2 := by
    have hle := Finset.card_le_card (Finset.sdiff_subset (s := U)
      (t := (DepthFirst.State.empty : DepthFirst.State Address).visited))
    have hinsert := Finset.card_insert_le f.entry
      (f.blocks.flatMap BasicBlock.successors).toFinset
    have hcard := (f.blocks.flatMap BasicBlock.successors).toFinset_card_le
    rw [← hU] at hinsert
    omega
  obtain ⟨st, hst, hv⟩ := DepthFirst.exists_visit Fault.outOfFuel hclosed
    DepthFirst.State.ok_empty (Finset.mem_insert_self _ _)
    (fun x hx => absurd hx (Finset.notMem_empty x)) hfuel
  have hdfs := dfsBackEdges_eq (f := f) ((f.blocks.flatMap BasicBlock.successors).length + 2)
    f.entry .empty
  rw [hst] at hdfs
  rw [findBackEdges]
  rcases hdfs with hfail | hdfs
  · exact Or.inl (hfail.bind _)
  · exact Or.inr ⟨st, (congrArg (· >>= _) hdfs).trans (Fallible.ok_bind _ _), hv⟩

end Search

variable {g : Function} (hg : IsLinked g)

include hg

theorem successorsOf_eq {b : BasicBlock} (hb : b ∈ g.blocks) :
    successorsOf g.blocks b.startAddress = b.successors := by
  rw [successorsOf, (blockStarting_eq_some hg.nodup_starts).mpr ⟨hb, rfl⟩, Option.elim_some]

theorem edge_iff {a c : Address} :
    Edge g.blocks a c ↔ ∃ b ∈ g.blocks, b.startAddress = a ∧ c ∈ b.successors := by
  constructor
  · intro h
    cases hb : blockStarting g.blocks a with
    | none => simp [Edge, successorsOf, hb] at h
    | some b =>
      obtain ⟨hmem, rfl⟩ := (blockStarting_eq_some hg.nodup_starts).mp hb
      rw [Edge, successorsOf_eq hg hmem] at h
      exact ⟨b, hmem, rfl, h⟩
  · rintro ⟨b, hb, rfl, h⟩
    rwa [Edge, successorsOf_eq hg hb]

theorem exists_block_of_edge {a c : Address} (h : Edge g.blocks a c) :
    ∃ b ∈ g.blocks, b.startAddress = c := by
  obtain ⟨b, hb, rfl, hc⟩ := (edge_iff hg).mp h
  exact hg.successor b hb c hc

omit hg in
/-- A set of edges without which every reachable address is still reached. -/
structure IsBackEdges (g : Function) (backEdges : Finset (Address × Address)) : Prop where
  edge : ∀ a b, (a, b) ∈ backEdges → Edge g.blocks a b
  reached : ∀ a, Reachable g a →
    Relation.ReflTransGen (fun a b => Edge g.blocks a b ∧ (a, b) ∉ backEdges) g.entry a

/-- The search succeeds, and what it records are back edges. -/
theorem findBackEdges_eq_ok :
    ∃ backEdges, findBackEdges g = .ok backEdges ∧ IsBackEdges g backEdges := by
  have hnext : ∀ a, nextOf g a = successorsOf g.blocks a := by
    intro a
    rw [nextOf, found, hg.blockAt]
    rfl
  rcases exists_search g with ⟨a, hfail, -⟩ | ⟨st, hfound, hv⟩
  · rw [hg.blockAt] at hfail
    cases hfail
  rw [show nextOf g = successorsOf g.blocks from funext hnext] at hv
  have hclosed : ∀ a, Reachable g a → a ∈ st.visited := by
    intro a ha
    induction ha with
    | refl => exact hv.mem
    | tail _ hedge ih => exact hv.closed _ ih (DepthFirst.State.notMem_empty _) _ hedge
  refine ⟨st.back, hfound, ⟨fun a b hab => ?_, fun a ha => ?_⟩⟩
  · rcases hv.back a b hab with h | ⟨-, -, h, -⟩
    · simp [DepthFirst.State.empty] at h
    · exact h
  · exact Relation.ReflTransGen.mono (fun u v h => ⟨h.edge, h.not_back⟩) _ _
      (hv.reached a (hclosed a ha) (DepthFirst.State.notMem_empty a))

omit hg

section Cycles

def HasSuccessor (f : Function) (a c : Address) : Prop :=
  ∃ b, f.blockAt a = .ok (some b) ∧ c ∈ b.successors

/-- A set of edges that cuts exactly the cycles: each of them is reached from the entry and lies
on a cycle, and without them there is none. -/
structure CutsCycles (f : Function) (backEdges : Finset (Address × Address)) : Prop where
  edge : ∀ u v, (u, v) ∈ backEdges → HasSuccessor f u v
  reachable : ∀ u v, (u, v) ∈ backEdges → Relation.ReflTransGen (HasSuccessor f) f.entry u ∧
    Relation.ReflTransGen (HasSuccessor f) f.entry v
  cycle : ∀ u v, (u, v) ∈ backEdges → Relation.ReflTransGen (HasSuccessor f) v u
  acyclic : ∀ u, Relation.ReflTransGen (HasSuccessor f) f.entry u →
    ¬ Relation.TransGen (fun u v => HasSuccessor f u v ∧ (u, v) ∉ backEdges) u u
  cut : ∀ u path, Relation.ReflTransGen (HasSuccessor f) f.entry u →
    List.IsChain (HasSuccessor f) (u :: (path ++ [u])) →
    ∃ a b, Follows (u :: (path ++ [u])) a b ∧ (a, b) ∈ backEdges

theorem transGen_of_isChain {α : Type} {r : α → α → Prop} {a b : α} {path : List α}
    (h : List.IsChain r (a :: (path ++ [b]))) : Relation.TransGen r a b := by
  induction path generalizing a with
  | nil => exact Relation.TransGen.single (List.isChain_cons_cons.mp h).1
  | cons c path ih =>
    obtain ⟨hac, hrest⟩ := List.isChain_cons_cons.mp h
    exact Relation.TransGen.head hac (ih hrest)

theorem mem_nextOf {f : Function} {a c : Address} : c ∈ nextOf f a ↔ HasSuccessor f a c := by
  constructor
  · intro h
    cases hb : found f a with
    | none => simp [nextOf, hb] at h
    | some b =>
      rw [nextOf, hb] at h
      exact ⟨b, blockAt_of_found hb, h⟩
  · rintro ⟨b, hb, hc⟩
    rwa [nextOf, found, hb]

section Search

variable {f : Function} {st : DepthFirst.State Address}
  (hv : DepthFirst.Visited (nextOf f) f.entry .empty st)

include hv

theorem mem_visited_iff {u : Address} :
    u ∈ st.visited ↔ Relation.ReflTransGen (HasSuccessor f) f.entry u := by
  constructor
  · intro hu
    have hpath := hv.reached u hu (DepthFirst.State.notMem_empty u)
    exact Relation.ReflTransGen.mono (fun x y hxy => mem_nextOf.mp hxy.edge) _ _ hpath
  · intro hu
    induction hu with
    | refl => exact hv.mem
    | tail _ hedge ih =>
      exact hv.closed _ ih (DepthFirst.State.notMem_empty _) _ (mem_nextOf.mpr hedge)

theorem of_mem_back {u v : Address} (huv : (u, v) ∈ st.back) :
    u ∈ st.visited ∧ HasSuccessor f u v ∧ Relation.ReflTransGen (HasSuccessor f) v u := by
  have hsucc : (fun u v => v ∈ nextOf f u) = HasSuccessor f := by
    ext u v
    exact mem_nextOf
  rcases hv.back u v huv with hold | ⟨-, hu, hedge, hcycle⟩
  · exact absurd hold (Finset.notMem_empty _)
  · rw [DepthFirst.Reaches, hsucc] at hcycle
    exact ⟨hu, mem_nextOf.mp hedge, hcycle⟩

/-- Without the recorded edges nothing that the entry leads to lies on a cycle. -/
theorem acyclic_of_visited {u : Address} (hu : Relation.ReflTransGen (HasSuccessor f) f.entry u) :
    ¬ Relation.TransGen (fun u v => HasSuccessor f u v ∧ (u, v) ∉ st.back) u u := by
  intro hcycle
  -- nothing is on the path any more: every visited block has been left
  obtain ⟨order, hleft⟩ := hv.left [] DepthFirst.LeftIn.empty
  have hmem : u ∈ order := by
    apply (hleft.mem_iff u).mpr
    rw [hv.inStack]
    exact ⟨(mem_visited_iff hv).mpr hu, Finset.notMem_empty u⟩
  apply hleft.acyclic hmem
  exact Relation.TransGen.mono (fun x y hxy => ⟨mem_nextOf.mpr hxy.1, hxy.2⟩) _ _ hcycle

end Search

/-- Removing the edges that the search records cuts every cycle that the entry leads to, and
nothing else is removed: a recorded edge lies on a cycle. -/
theorem findBackEdges_cutsCycles (f : Function) : LookupFails f (findBackEdges f) ∨
    ∃ backEdges, findBackEdges f = .ok backEdges ∧ CutsCycles f backEdges := by
  rcases exists_search f with hfail | ⟨st, hst, hv⟩
  · exact Or.inl hfail
  refine Or.inr ⟨st.back, hst, ?_⟩
  constructor
  case edge => exact fun u v huv => (of_mem_back hv huv).2.1
  case reachable =>
    intro u v huv
    obtain ⟨hu, hedge, -⟩ := of_mem_back hv huv
    have hreached := (mem_visited_iff hv).mp hu
    exact ⟨hreached, hreached.tail hedge⟩
  case cycle => exact fun u v huv => (of_mem_back hv huv).2.2
  case acyclic => exact fun u hu => acyclic_of_visited hv hu
  case cut =>
    intro u path hu hchain
    by_contra hnone
    push Not at hnone
    apply acyclic_of_visited hv hu
    apply @transGen_of_isChain _ _ _ _ path
    apply isChain_iff_follows.mpr
    intro a b hab
    exact ⟨isChain_iff_follows.mp hchain a b hab, hnone a b hab⟩

end Cycles

end Decompiler.Structurer
