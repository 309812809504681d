import Mathlib.Data.Finset.Card
import Mathlib.Logic.Relation
import Mathlib.Tactic.Common
import Decompiler.Library.Fallible

/-! # Depth-first search

A search that records an edge as a back edge when it leads to a vertex on the
current path. What it visits is closed under successors, and every vertex that it
visits is reached from the root along edges that are not recorded. A recorded edge
closes a cycle, and without the recorded edges there is none: every other edge leads
to a vertex that the search has left before.
-/

namespace DepthFirst

variable {α : Type} [DecidableEq α]

theorem card_sdiff_lt {U V s : Finset α} {a : α} (hU : a ∈ U) (hV : a ∉ V) (hs : insert a V ⊆ s) :
    (U \ s).card < (U \ V).card := by
  have hsub : U \ s ⊆ (U \ V).erase a := by
    rw [← Finset.sdiff_insert]
    exact Finset.sdiff_subset_sdiff (Finset.Subset.refl _) hs
  have hlt := Finset.card_erase_lt_of_mem (Finset.mem_sdiff.mpr ⟨hU, hV⟩)
  exact (Finset.card_le_card hsub).trans_lt hlt

structure State (α : Type) where
  visited : Finset α
  inStack : Finset α
  back : Finset (α × α)

namespace State

def enter (st : State α) (a : α) : State α :=
  { st with visited := insert a st.visited, inStack := insert a st.inStack }

def record (st : State α) (a b : α) : State α := { st with back := insert (a, b) st.back }

def leave (st : State α) (a : α) : State α := { st with inStack := st.inStack.erase a }

def empty : State α := ⟨∅, ∅, ∅⟩

structure Ok (st : State α) : Prop where
  inStack : st.inStack ⊆ st.visited
  back : ∀ u v, (u, v) ∈ st.back → u ∈ st.visited

omit [DecidableEq α] in
theorem ok_empty : (empty : State α).Ok := ⟨Finset.Subset.refl _, fun _ _ h => absurd h (by simp [empty])⟩

omit [DecidableEq α] in
theorem notMem_empty (a : α) : a ∉ (empty : State α).visited := Finset.notMem_empty a

end State

variable {ε : Type} (limit : ε) (succs : α → List α)

/-- Visits a vertex and what its edges lead to; `fuel` bounds the depth. -/
def visit : ℕ → α → State α → Except ε (State α)
  | 0, _, _ => .error limit
  | fuel + 1, a, st => do
    if a ∈ st.visited then return st
    let st ← (succs a).foldlM (fun st b =>
      if b ∈ st.inStack then .ok (st.record a b) else visit fuel b st) (st.enter a)
    return st.leave a

def Reaches : α → α → Prop := Relation.ReflTransGen fun u v => v ∈ succs u

/-- An edge from a vertex that was visited in between, and that is not recorded. -/
structure TreeStep (st st' : State α) (u v : α) : Prop where
  edge : v ∈ succs u
  not_back : (u, v) ∉ st'.back
  new : u ∉ st.visited
  visited : u ∈ st'.visited

/-- The vertices that have been left, in this order: an edge from one of them that is not
recorded leads to an earlier one. -/
structure LeftIn (st : State α) (order : List α) : Prop where
  mem_iff : ∀ x, x ∈ order ↔ x ∈ st.visited ∧ x ∉ st.inStack
  nodup : order.Nodup
  earlier : ∀ u ∈ order, ∀ v ∈ succs u, (u, v) ∉ st.back → [v, u].Sublist order

structure Visited (a : α) (st st' : State α) : Prop where
  visited : st.visited ⊆ st'.visited
  mem : a ∈ st'.visited
  inStack : st'.inStack = st.inStack
  back : ∀ u v, (u, v) ∈ st'.back → (u, v) ∈ st.back ∨
    (u ∉ st.visited ∧ u ∈ st'.visited ∧ v ∈ succs u ∧ Reaches succs v u)
  back_mono : st.back ⊆ st'.back
  closed : ∀ u ∈ st'.visited, u ∉ st.visited → ∀ v ∈ succs u, v ∈ st'.visited
  reached : ∀ x ∈ st'.visited, x ∉ st.visited →
    Relation.ReflTransGen (TreeStep succs st st') a x
  left : ∀ order, LeftIn succs st order → ∃ order', LeftIn succs st' order'

/-- What has changed after some edges of a vertex that was just entered. -/
structure Followed (a : α) (s s' : State α) (p : List α) : Prop where
  visited : s.visited ⊆ s'.visited
  inStack : s'.inStack = s.inStack
  back : ∀ u v, (u, v) ∈ s'.back → (u, v) ∈ s.back ∨ (u = a ∧ v ∈ p ∧ v ∈ s.inStack) ∨
    (u ∉ s.visited ∧ u ∈ s'.visited ∧ v ∈ succs u ∧ Reaches succs v u)
  back_mono : s.back ⊆ s'.back
  followed : ∀ v ∈ p, v ∈ s'.visited ∧ (v ∈ s'.inStack → (a, v) ∈ s'.back)
  closed : ∀ u ∈ s'.visited, u ∉ s.visited → ∀ v ∈ succs u, v ∈ s'.visited
  reached : ∀ x ∈ s'.visited, x ∉ s.visited → ∃ v ∈ p, v ∉ s.inStack ∧ (a, v) ∉ s'.back ∧
    Relation.ReflTransGen (TreeStep succs s s') v x
  left : ∀ order, LeftIn succs s order → ∃ order', LeftIn succs s' order'

variable {succs} {a b : α} {s s' s'' : State α} {p order : List α}

namespace LeftIn

omit [DecidableEq α] in
theorem empty : LeftIn succs (State.empty : State α) [] :=
  ⟨fun x => ⟨nofun, fun h => absurd h.1 (State.notMem_empty x)⟩, List.nodup_nil, nofun⟩

theorem record (h : LeftIn succs s order) (u v : α) : LeftIn succs (s.record u v) order where
  mem_iff := h.mem_iff
  nodup := h.nodup
  earlier x hx y hy hnot := h.earlier x hx y hy fun hmem => hnot (Finset.mem_insert_of_mem hmem)

theorem enter (h : LeftIn succs s order) (ha : a ∉ s.visited) : LeftIn succs (s.enter a) order where
  mem_iff x := by
    rw [h.mem_iff, State.enter, Finset.mem_insert, Finset.mem_insert, not_or]
    constructor
    · rintro ⟨hv, hn⟩
      exact ⟨Or.inr hv, fun hxa => ha (hxa ▸ hv), hn⟩
    · rintro ⟨rfl | hv, hne, hn⟩
      · exact absurd rfl hne
      · exact ⟨hv, hn⟩
  nodup := h.nodup
  earlier := h.earlier

/-- A vertex is left behind all its edges, and the unrecorded ones lead to vertices that
have been left. -/
theorem leave (h : LeftIn succs s order) (ha : a ∈ s.visited) (hstack : a ∈ s.inStack)
    (hout : ∀ v ∈ succs a, v ∈ s.visited ∧ (v ∈ s.inStack → (a, v) ∈ s.back)) :
    LeftIn succs (s.leave a) (order ++ [a]) where
  mem_iff x := by
    rw [List.mem_append, List.mem_singleton, h.mem_iff, State.leave, Finset.mem_erase, not_and_or,
      not_not]
    constructor
    · rintro (⟨hv, hn⟩ | rfl)
      · exact ⟨hv, Or.inr hn⟩
      · exact ⟨ha, Or.inl rfl⟩
    · rintro ⟨hv, rfl | hn⟩
      · exact Or.inr rfl
      · exact Or.inl ⟨hv, hn⟩
  nodup := by
    rw [List.nodup_append_comm]
    exact List.nodup_cons.mpr ⟨fun hmem => ((h.mem_iff a).mp hmem).2 hstack, h.nodup⟩
  earlier u hu v hv hnot := by
    rcases List.mem_append.mp hu with hu | hu
    · exact (h.earlier u hu v hv hnot).trans (List.sublist_append_left _ _)
    · obtain rfl := List.mem_singleton.mp hu
      obtain ⟨hvisited, hback⟩ := hout v hv
      have hmem : v ∈ order := (h.mem_iff v).mpr ⟨hvisited, fun hin => hnot (hback hin)⟩
      exact (List.singleton_sublist.mpr hmem).append (List.Sublist.refl [u])

theorem idxOf_lt_of_sublist {l : List α} (hnd : l.Nodup) (h : [a, b].Sublist l) :
    l.idxOf a < l.idxOf b := by
  induction l with
  | nil => cases h
  | cons x l ih =>
    obtain ⟨hx, hl⟩ := List.nodup_cons.mp hnd
    have hne : ∀ y ∈ l, (x :: l).idxOf y = l.idxOf y + 1 := fun y hy =>
      List.idxOf_cons_ne _ fun hxy => hx (hxy ▸ hy)
    rcases List.sublist_cons_iff.mp h with h | ⟨r, hr, h⟩
    · rw [hne a (h.subset (by simp)), hne b (h.subset (by simp))]
      exact Nat.succ_lt_succ (ih hl h)
    · obtain ⟨rfl, rfl⟩ := List.cons.inj hr
      rw [hne b (List.singleton_sublist.mp h), List.idxOf_cons_self]
      exact Nat.succ_pos _

/-- Along the edges that are not recorded no vertex comes back to itself. -/
theorem acyclic (h : LeftIn succs s order) (ha : a ∈ order) :
    ¬ Relation.TransGen (fun u v => v ∈ succs u ∧ (u, v) ∉ s.back) a a := by
  have hdescends : ∀ {x y}, x ∈ order →
      Relation.TransGen (fun u v => v ∈ succs u ∧ (u, v) ∉ s.back) x y →
      y ∈ order ∧ order.idxOf y < order.idxOf x := by
    intro x y hx hpath
    have hstep : ∀ {u v}, u ∈ order → v ∈ succs u ∧ (u, v) ∉ s.back →
        v ∈ order ∧ order.idxOf v < order.idxOf u := by
      rintro u v hu ⟨hv, hnot⟩
      have hbefore := h.earlier u hu v hv hnot
      exact ⟨hbefore.subset (by simp), idxOf_lt_of_sublist h.nodup hbefore⟩
    induction hpath with
    | single hedge => exact hstep hx hedge
    | tail _ hedge ih =>
      obtain ⟨hmem, hlt⟩ := hstep ih.1 hedge
      exact ⟨hmem, hlt.trans ih.2⟩
  exact fun hcycle => lt_irrefl _ (hdescends ha hcycle).2

end LeftIn

omit [DecidableEq α] in
theorem Followed.nil (a : α) (s : State α) : Followed succs a s s [] where
  visited := Finset.Subset.refl _
  inStack := rfl
  back _ _ h := Or.inl h
  back_mono := Finset.Subset.refl _
  followed := by simp
  closed u hu hn := absurd hu hn
  reached x hx hn := absurd hx hn
  left order h := ⟨order, h⟩

omit [DecidableEq α] in
theorem Followed.ok (h : Followed succs a s s' p) (hs : s.Ok) (ha : a ∈ s.visited) : s'.Ok where
  inStack := h.inStack ▸ hs.inStack.trans h.visited
  back u v huv := by
    rcases h.back u v huv with hb | ⟨rfl, -⟩ | ⟨-, hu, -⟩
    · exact h.visited (hs.back u v hb)
    · exact h.visited ha
    · exact hu

theorem Followed.record (h : Followed succs a s s' p) (hs : s.Ok) (ha : a ∈ s.visited)
    (hb : b ∈ s'.inStack) : Followed succs a s (s'.record a b) (p ++ [b]) where
  visited := h.visited
  inStack := h.inStack
  back u v huv := by
    rcases Finset.mem_insert.mp huv with heq | huv
    · obtain ⟨rfl, rfl⟩ := Prod.mk.inj heq
      exact Or.inr (Or.inl ⟨rfl, by simp, h.inStack ▸ hb⟩)
    · rcases h.back u v huv with hb | ⟨rfl, hv, hin⟩ | hnew
      · exact Or.inl hb
      · exact Or.inr (Or.inl ⟨rfl, List.mem_append_left _ hv, hin⟩)
      · exact Or.inr (Or.inr hnew)
  back_mono := h.back_mono.trans (Finset.subset_insert _ _)
  followed v hv := by
    rcases List.mem_append.mp hv with hv | hv
    · obtain ⟨hvisited, hback⟩ := h.followed v hv
      exact ⟨hvisited, fun hin => Finset.mem_insert_of_mem (hback hin)⟩
    · rw [List.mem_singleton.mp hv]
      exact ⟨(h.ok hs ha).inStack hb, fun _ => Finset.mem_insert_self _ _⟩
  closed := h.closed
  reached x hx hn := by
    obtain ⟨v, hv, hout, hback, hpath⟩ := h.reached x hx hn
    refine ⟨v, List.mem_append_left _ hv, hout, fun hmem => ?_,
      Relation.ReflTransGen.mono (fun u w hstep => ?_) _ _ hpath⟩
    · rcases Finset.mem_insert.mp hmem with heq | hmem
      · exact hout ((Prod.mk.inj heq).2 ▸ h.inStack ▸ hb)
      · exact hback hmem
    · refine ⟨hstep.edge, fun hmem => ?_, hstep.new, hstep.visited⟩
      rcases Finset.mem_insert.mp hmem with heq | hmem
      · exact hstep.new ((Prod.mk.inj heq).1 ▸ ha)
      · exact hstep.not_back hmem
  left order hleft := by
    obtain ⟨order', hleft'⟩ := h.left order hleft
    exact ⟨order', hleft'.record a b⟩

theorem Followed.visit (h : Followed succs a s s' p) (ha : a ∈ s.visited)
    (hout : ∀ v, (a, v) ∉ s.back) (hb : b ∉ s'.inStack) (hv : Visited succs b s' s'') :
    Followed succs a s s'' (p ++ [b]) where
  visited := h.visited.trans hv.visited
  inStack := hv.inStack.trans h.inStack
  back u v huv := by
    rcases hv.back u v huv with huv | ⟨hn, hu, he⟩
    · rcases h.back u v huv with hb | ⟨rfl, hv', hin⟩ | ⟨hn, hu, he⟩
      · exact Or.inl hb
      · exact Or.inr (Or.inl ⟨rfl, List.mem_append_left _ hv', hin⟩)
      · exact Or.inr (Or.inr ⟨hn, hv.visited hu, he⟩)
    · exact Or.inr (Or.inr ⟨fun hus => hn (h.visited hus), hu, he⟩)
  back_mono := h.back_mono.trans hv.back_mono
  followed v hvp := by
    rcases List.mem_append.mp hvp with hvp | hvp
    · obtain ⟨hvisited, hback⟩ := h.followed v hvp
      exact ⟨hv.visited hvisited, fun hin => hv.back_mono (hback (hv.inStack ▸ hin))⟩
    · rw [List.mem_singleton.mp hvp]
      exact ⟨hv.mem, fun hin => absurd (hv.inStack ▸ hin) hb⟩
  closed u hu hn v he := by
    by_cases hu' : u ∈ s'.visited
    · exact hv.visited (h.closed u hu' hn v he)
    · exact hv.closed u hu hu' v he
  reached x hx hn := by
    -- the visit records no edge whose source was visited before
    have hold : ∀ u w, u ∈ s'.visited → (u, w) ∉ s'.back → (u, w) ∉ s''.back := by
      intro u w hu hnot hmem
      rcases hv.back u w hmem with hmem | ⟨hnew, -, -⟩
      · exact hnot hmem
      · exact hnew hu
    by_cases hx' : x ∈ s'.visited
    · obtain ⟨v, hvp, hvout, hback, hpath⟩ := h.reached x hx' hn
      exact ⟨v, List.mem_append_left _ hvp, hvout, hold a v (h.visited ha) hback,
        Relation.ReflTransGen.mono (fun u w hstep => ⟨hstep.edge,
          hold u w hstep.visited hstep.not_back, hstep.new, hv.visited hstep.visited⟩) _ _ hpath⟩
    · refine ⟨b, by simp, h.inStack ▸ hb, hold a b (h.visited ha) fun hmem => ?_,
        Relation.ReflTransGen.mono (fun u w hstep => ⟨hstep.edge, hstep.not_back,
          fun hu => hstep.new (h.visited hu), hstep.visited⟩) _ _ (hv.reached x hx hx')⟩
      rcases h.back a b hmem with hback | ⟨-, -, hin⟩ | ⟨hnew, -, -⟩
      · exact hout b hback
      · exact hb (h.inStack ▸ hin)
      · exact hnew ha
  left order hleft := by
    obtain ⟨order', hleft'⟩ := h.left order hleft
    exact hv.left order' hleft'

theorem Followed.visited_leave {st : State α} (hst : st.Ok) (ha : a ∉ st.visited)
    (hpath : ∀ x ∈ st.inStack, Reaches succs x a)
    (h : Followed succs a (st.enter a) s (succs a)) : Visited succs a st (s.leave a) where
  visited := (Finset.subset_insert _ _).trans h.visited
  mem := h.visited (Finset.mem_insert_self _ _)
  inStack := by
    have herase : (insert a st.inStack).erase a = st.inStack :=
      Finset.erase_insert fun hmem => ha (hst.inStack hmem)
    rw [State.leave, h.inStack]
    exact herase
  back u v huv := by
    rcases h.back u v huv with hb | ⟨rfl, hv, hin⟩ | ⟨hn, hu, he⟩
    · exact Or.inl hb
    · refine Or.inr ⟨ha, h.visited (Finset.mem_insert_self _ _), hv, ?_⟩
      rcases Finset.mem_insert.mp hin with rfl | hin
      · exact Relation.ReflTransGen.refl
      · exact hpath v hin
    · exact Or.inr ⟨fun hmem => hn (Finset.mem_insert_of_mem hmem), hu, he⟩
  back_mono := h.back_mono
  closed u hu hn v he := by
    by_cases hua : u = a
    · exact (h.followed v (hua ▸ he)).1
    · exact h.closed u hu (fun hmem => (Finset.mem_insert.mp hmem).elim hua hn) v he
  reached x hx hn := by
    by_cases hxa : x = a
    · rw [hxa]
    obtain ⟨v, hv, -, hback, hpath⟩ :=
      h.reached x hx fun hmem => (Finset.mem_insert.mp hmem).elim hxa hn
    refine Relation.ReflTransGen.head (b := v)
      ⟨hv, hback, ha, h.visited (Finset.mem_insert_self _ _)⟩ (Relation.ReflTransGen.mono (fun u w hstep => ?_) _ _ hpath)
    exact ⟨hstep.edge, hstep.not_back, fun hmem => hstep.new (Finset.mem_insert_of_mem hmem),
      hstep.visited⟩
  left order hleft := by
    obtain ⟨order', hleft'⟩ := h.left order (hleft.enter ha)
    have hstack : a ∈ s.inStack := h.inStack ▸ Finset.mem_insert_self _ _
    exact ⟨_, hleft'.leave (h.visited (Finset.mem_insert_self _ _)) hstack h.followed⟩

/-- With fuel for every vertex that is not visited the search succeeds. -/
theorem exists_visit {U : Finset α} (hU : ∀ a ∈ U, ∀ b ∈ succs a, b ∈ U) {fuel : ℕ}
    {st : State α} (hst : st.Ok) (ha : a ∈ U) (hpath : ∀ x ∈ st.inStack, Reaches succs x a)
    (hfuel : (U \ st.visited).card < fuel) :
    ∃ st', visit limit succs fuel a st = .ok st' ∧ Visited succs a st st' := by
  induction fuel generalizing a st with
  | zero => exact absurd hfuel (Nat.not_lt_zero _)
  | succ fuel ih =>
    rw [DepthFirst.visit]
    split
    case isTrue hmem =>
      exact ⟨st, rfl, ⟨Finset.Subset.refl _, hmem, rfl, fun _ _ h => Or.inl h,
        Finset.Subset.refl _, fun u hu hn => absurd hu hn, fun x hx hn => absurd hx hn,
        fun order h => ⟨order, h⟩⟩⟩
    case isFalse hmem =>
      have hok : (st.enter a).Ok := by
        refine ⟨Finset.insert_subset_insert _ hst.inStack, fun u v huv => ?_⟩
        exact Finset.mem_insert_of_mem (hst.back u v huv)
      have ha' : a ∈ (st.enter a).visited := Finset.mem_insert_self _ _
      have hout : ∀ v, (a, v) ∉ (st.enter a).back := fun v hv => hmem (hst.back a v hv)
      have hcard : (U \ (st.enter a).visited).card < fuel := by
        have hlt := card_sdiff_lt ha hmem (Finset.Subset.refl (st.enter a).visited)
        omega
      have hloop : ∃ s, (succs a).foldlM (fun st b =>
          if b ∈ st.inStack then .ok (st.record a b) else DepthFirst.visit limit succs fuel b st)
          (st.enter a) = .ok s ∧ Followed succs a (st.enter a) s (succs a) := by
        apply Fallible.foldlM_invariant (fun p s => Followed succs a (st.enter a) s p)
        · exact Followed.nil a _
        intro p b s hb hs
        by_cases hstack : b ∈ s.inStack
        · exact ⟨_, if_pos hstack, hs.record hok ha' hstack⟩
        · have hle : (U \ s.visited).card ≤ (U \ (st.enter a).visited).card :=
            Finset.card_le_card (Finset.sdiff_subset_sdiff (Finset.Subset.refl _) hs.visited)
          -- the path to `a`, and `a` itself, lead on to `b`
          have hpath' : ∀ x ∈ s.inStack, Reaches succs x b := by
            intro x hx
            rw [hs.inStack] at hx
            rcases Finset.mem_insert.mp hx with rfl | hx
            · exact Relation.ReflTransGen.single hb
            · exact (hpath x hx).tail hb
          obtain ⟨s', hs', hv⟩ := ih (hs.ok hok ha') (hU a ha b hb) hpath' (by omega)
          exact ⟨s', (if_neg hstack).trans hs', hs.visit ha' hout hstack hv⟩
      obtain ⟨s, hs, hfollowed⟩ := hloop
      refine ⟨s.leave a, ?_, hfollowed.visited_leave hst hmem hpath⟩
      exact (congrArg (· >>= _) hs).trans (Fallible.ok_bind _ _)

end DepthFirst
