import Decompiler.Library.Fuel
import Decompiler.Library.Visiting
import Decompiler.Structurer.BackEdges

/-! # The search ends

The search for back edges with its recursion made explicit: a stack of what the calls
under way have still to do. On any function, whatever its index points to, the search
settles, and it enters every address at most once.
-/

namespace Decompiler.Structurer

open Fuel Visiting

/-- The addresses at which a lookup finds a block. -/
def blockAddresses (f : Function) : Finset Address :=
  (f.blockIndex.keys ∪ (f.blocks.map BasicBlock.startAddress).toFinset).filter
    fun a => (found f a).isSome

theorem mem_blockAddresses {f : Function} {a : Address} :
    a ∈ blockAddresses f ↔ ∃ b, found f a = some b := by
  rw [blockAddresses, Finset.mem_filter, Option.isSome_iff_exists]
  constructor
  · exact And.right
  · rintro ⟨b, hb⟩
    refine ⟨?_, b, hb⟩
    rw [Finset.mem_union, List.mem_toFinset]
    rcases blockAt_cases (blockAt_of_found hb) with ⟨-, hmem, rfl⟩ | ⟨i, hi, -⟩
    · exact Or.inr (List.mem_map_of_mem hmem)
    · left
      rw [Finmap.mem_keys, ← Finmap.lookup_isSome, hi]
      rfl

/-- Fuel for the blocks that have not been visited is enough, and more fuel changes nothing. -/
theorem dfsBackEdges_settles (f : Function) (addr : Address) (st : DfsState) :
    Settles Fault.outOfFuel ((blockAddresses f \ st.visited).card + 1)
      (fun fuel => dfsBackEdges f fuel addr st) fun st' => st.visited ⊆ st'.visited := by
  induction hn : (blockAddresses f \ st.visited).card using Nat.strong_induction_on
    generalizing addr st with
  | _ n ih =>
    by_cases hseen : addr ∈ st.visited
    · exact .of_succ (fun fuel => dfsBackEdges_of_mem fuel hseen) (.ok (Finset.Subset.refl _))
    rcases blockAt_found f addr with hfail | hat
    · exact .of_succ (fun fuel => dfsBackEdges_of_error fuel hseen hfail) (.error (by decide))
    refine .of_succ (fun fuel => dfsBackEdges_of_ok fuel hseen hat) ?_
    have hsub : st.visited ⊆ (st.enter addr).visited := Finset.subset_insert addr st.visited
    have hedge : ∀ st' succ, (st.enter addr).visited ⊆ st'.visited → succ ∈ nextOf f addr →
        Settles Fault.outOfFuel n (fun fuel => followEdge f fuel addr st' succ)
          fun st'' => (st.enter addr).visited ⊆ st''.visited := by
      intro st' succ hvisited hsucc
      by_cases hback : succ ∈ st'.inStack
      · simp only [followEdge, if_pos hback]
        exact .ok hvisited
      · simp only [followEdge, if_neg hback]
        -- the address has a successor, so there is a block, and one address fewer is left
        have hlt : (blockAddresses f \ st'.visited).card < n := by
          cases hb : found f addr with
          | none => simp [nextOf, hb] at hsucc
          | some b =>
            rw [← hn]
            exact DepthFirst.card_sdiff_lt (mem_blockAddresses.mpr ⟨b, hb⟩) hseen hvisited
        have hcall := (ih _ hlt succ st' rfl).mono hlt
        exact hcall.imp fun st'' h => hvisited.trans h
    have hloop := Settles.foldlM hedge (Finset.Subset.refl _)
    exact hloop.bind fun st' hvisited => .ok (hsub.trans hvisited)

/-- What a call of `dfs_back_edges` has still to do: all of it, the edge to a successor, or the
removal from the path. -/
inductive SearchTask where
  | call (addr : Address)
  | follow (addr succ : Address)
  | leave (addr : Address)
  deriving DecidableEq

/-- The tasks of all calls under way, the next one first, and the sets that the calls share. -/
structure SearchState where
  tasks : List SearchTask
  st : DfsState

inductive SearchStep (f : Function) : SearchState → Option Address → SearchState → Prop
  | seen {addr : Address} {rest : List SearchTask} {st : DfsState} (seen : addr ∈ st.visited) :
    SearchStep f ⟨.call addr :: rest, st⟩ none ⟨rest, st⟩
  | enter {addr : Address} {rest : List SearchTask} {st : DfsState} (new : addr ∉ st.visited)
    (block : f.blockAt addr = .ok (found f addr)) :
    SearchStep f ⟨.call addr :: rest, st⟩ (some addr)
      ⟨(nextOf f addr).map (.follow addr) ++ .leave addr :: rest, st.enter addr⟩
  | back {addr succ : Address} {rest : List SearchTask} {st : DfsState}
    (on_path : succ ∈ st.inStack) :
    SearchStep f ⟨.follow addr succ :: rest, st⟩ none ⟨rest, st.record addr succ⟩
  | deeper {addr succ : Address} {rest : List SearchTask} {st : DfsState}
    (off_path : succ ∉ st.inStack) :
    SearchStep f ⟨.follow addr succ :: rest, st⟩ none ⟨.call succ :: rest, st⟩
  | leave {addr : Address} {rest : List SearchTask} {st : DfsState} :
    SearchStep f ⟨.leave addr :: rest, st⟩ none ⟨rest, st.leave addr⟩

def searchRaises (f : Function) (e : Fault) (s : SearchState) : Prop :=
  ∃ addr rest, s.tasks = .call addr :: rest ∧ addr ∉ s.st.visited ∧ f.blockAt addr = .error e

/-- A bound on the steps of a task, without those for the successors of an address. -/
def SearchTask.cost : SearchTask → ℕ
  | call _ => 2
  | follow _ _ => 3
  | leave _ => 1

def SearchState.pending (s : SearchState) : ℕ := (s.tasks.map SearchTask.cost).sum

section Steps

variable {f : Function}

theorem sum_cost_follow (addr : Address) (succs : List Address) :
    ((succs.map (SearchTask.follow addr)).map SearchTask.cost).sum = 3 * succs.length := by
  induction succs with
  | nil => rfl
  | cons succ succs ih =>
    simp only [List.map_cons, List.sum_cons, List.length_cons, ih, SearchTask.cost]
    omega

theorem nextOf_eq_nil {addr : Address} (h : addr ∉ blockAddresses f) : nextOf f addr = [] := by
  cases hb : found f addr with
  | none => rw [nextOf, hb, Option.elim_none]
  | some b => exact absurd (mem_blockAddresses.mpr ⟨b, hb⟩) h

theorem searchStep_takesOnce (f : Function) :
    TakesOnce (SearchStep f) (fun s => s.st.visited) SearchState.pending (blockAddresses f)
      fun addr => 3 * (nextOf f addr).length := by
  constructor
  case skip =>
    intro s t hstep
    cases hstep with
    | seen | deeper | back | leave =>
      exact ⟨rfl, by simp [SearchState.pending, SearchTask.cost]⟩
  case take =>
    intro s addr t hstep
    cases hstep with
    | @enter _ rest st hnew hblock =>
      refine ⟨hnew, rfl, ?_⟩
      simp only [SearchState.pending, List.map_append, List.map_cons, List.sum_append,
        List.sum_cons, sum_cost_follow, SearchTask.cost]
      by_cases hmem : addr ∈ blockAddresses f
      · exact Or.inr ⟨hmem, by omega⟩
      · left
        rw [nextOf_eq_nil hmem, List.length_nil]
        omega

/-- The search is the recursion: it comes to what a call returns, or to the lookup that panics. -/
theorem dfsBackEdges_carriedOut (f : Function) (fuel : ℕ) (addr : Address) (st : DfsState)
    (rest : List SearchTask) :
    CarriedOut (SearchStep f) Fault.outOfFuel (searchRaises f) ⟨.call addr :: rest, st⟩
      (dfsBackEdges f fuel addr st) fun st' _ s => s = ⟨rest, st'⟩ := by
  induction fuel generalizing addr st rest with
  | zero => exact .limit_error
  | succ fuel ih =>
    by_cases hseen : addr ∈ st.visited
    · rw [dfsBackEdges_of_mem fuel hseen]
      exact .of_step (.seen hseen) (.ok rfl)
    rcases blockAt_found f addr with hfail | hat
    · rw [dfsBackEdges_of_error fuel hseen hfail]
      exact .raised ⟨addr, rest, rfl, hseen, hfail⟩
    rw [dfsBackEdges_of_ok fuel hseen hat]
    refine .of_step (.enter hseen hat) ?_
    -- the loop over the successors works off the tasks that the step has pushed
    have hloop : ∀ (succs : List Address) (st : DfsState) (rest : List SearchTask),
        CarriedOut (SearchStep f) Fault.outOfFuel (searchRaises f)
          ⟨succs.map (.follow addr) ++ rest, st⟩ (succs.foldlM (followEdge f fuel addr) st)
          fun st' _ s => s = ⟨rest, st'⟩ := by
      intro succs
      induction succs with
      | nil => exact fun st rest => .ok rfl
      | cons succ succs ihs =>
        intro st rest
        rw [List.foldlM_cons]
        have hedge : CarriedOut (SearchStep f) Fault.outOfFuel (searchRaises f)
            ⟨.follow addr succ :: (succs.map (.follow addr) ++ rest), st⟩
            (followEdge f fuel addr st succ)
            fun st' _ s => s = ⟨succs.map (.follow addr) ++ rest, st'⟩ := by
          by_cases hback : succ ∈ st.inStack
          · rw [followEdge, if_pos hback]
            exact .of_step (.back hback) (.ok rfl)
          · rw [followEdge, if_neg hback]
            exact .of_step (.deeper hback) (ih succ st _)
        refine hedge.bind fun st' _ s hs => ?_
        rw [hs]
        exact ihs st' rest
    refine (hloop (nextOf f addr) (st.enter addr) (.leave addr :: rest)).bind fun st' _ s hs => ?_
    rw [hs]
    exact .of_step .leave (.ok rfl)

end Steps

end Decompiler.Structurer
