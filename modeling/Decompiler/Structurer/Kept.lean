import Decompiler.Structurer.Emission
import Decompiler.Structurer.Simulation

/-! # Edges that the walk keeps

When the walk comes to a block, what it has visited and where its region stops tell which
edges of the block it drops. If it closes no loop whose head is still before it, the steps
along the other edges are safe.
-/

namespace Decompiler.Structurer

open Cfg

section Edge

variable (bs : List BasicBlock)

/-- A condition that fails: the next block is not the target, too, and has not been visited;
or there is no next block and the region has no stop address. -/
def FallsOn (b : BasicBlock) (t : Address) (seen : Finset Address) (stop : Option Address) : Prop :=
  match nextAfter bs b.startAddress with
  | some n => n ≠ t ∧ n ∉ seen
  | none => stop = none

/-- The walk keeps the edge that a block takes on the outcome of its condition. -/
def KeepsEdge (x : Context) : Region → Bool → Prop
  | .loop b _ t _ _, false => FallsOn bs b t (insert b.startAddress x.seen) x.stop
  | .doWhile b _ t _ _, true | .fork b _ t _ _ _, true =>
    t ∈ starts bs ∧ t ∉ insert b.startAddress x.seen
  | .fork b _ t _ body _, false =>
    FallsOn bs b t (insert b.startAddress x.seen ∪ body.visits) x.stop
  | .go _ a _, _ => a ∈ starts bs
  | .stuck _, _ => x.stop = none
  -- the `goto` leads to the head of the loop, to the target or to the next block
  | .loop _ _ _ _ _, true | .doWhile _ _ _ _ _, false | .jump _ _, _ => True
  | .ret _, _ | .skip, _ | .missing _, _ => True

instance (b : BasicBlock) (t : Address) (seen : Finset Address) (stop : Option Address) :
    Decidable (FallsOn bs b t seen stop) := by
  unfold FallsOn
  exact match nextAfter bs b.startAddress with
    | some _ => inferInstance
    | none => inferInstance

instance (x : Context) (r : Region) (taken : Bool) : Decidable (KeepsEdge bs x r taken) :=
  match r, taken with
  | .loop _ _ _ _ _, false | .fork _ _ _ _ _ _, false => inferInstanceAs (Decidable (FallsOn ..))
  | .doWhile _ _ _ _ _, true | .fork _ _ _ _ _ _, true => inferInstanceAs (Decidable (_ ∧ _))
  | .go _ _ _, _ => inferInstanceAs (Decidable (_ ∈ _))
  | .stuck _, _ => inferInstanceAs (Decidable (_ = none))
  | .loop _ _ _ _ _, true | .doWhile _ _ _ _ _, false | .jump _ _, _
  | .ret _, _ | .skip, _ | .missing _, _ => instDecidableTrue

end Edge

/-- The walk keeps the edge that the graph takes from a state. -/
def KeepsAt (g : Function) (outcomes : ℕ → Bool) (c : Config Place) : Prop :=
  ∃ r, regionOf g = .ok r ∧ ∀ p ∈ r.sites .top, p.2.head?.map Place.block = some c.control →
    KeepsEdge g.blocks p.1 p.2 (outcomes c.tests)

instance (g : Function) (outcomes : ℕ → Bool) (c : Config Place) :
    Decidable (KeepsAt g outcomes c) := by
  unfold KeepsAt
  infer_instance

theorem Region.fall_eq_none {r n : Region} {x y : Context} (h : x.stop = none → x.fall = none)
    (hs : (y, n) ∈ r.sites x) : y.stop = none → y.fall = none := by
  induction r generalizing x with
  | skip | missing => cases hs
  | loop _ _ _ _ next ih | go _ _ next ih =>
    rcases List.mem_cons.mp hs with hs | hs
    · obtain ⟨rfl, rfl⟩ := Prod.mk.inj hs
      exact h
    · refine ih ?_ hs
      exact h
  | doWhile _ _ _ f body ih =>
    rcases List.mem_cons.mp hs with hs | hs
    · obtain ⟨rfl, rfl⟩ := Prod.mk.inj hs
      exact h
    · exact ih (x := ⟨some f, _, _, _⟩) nofun hs
  | fork _ _ _ f body next ihb ihn =>
    rcases List.mem_cons.mp hs with hs | hs
    · obtain ⟨rfl, rfl⟩ := Prod.mk.inj hs
      exact h
    · rcases List.mem_append.mp hs with hs | hs
      · exact ihb (x := ⟨some f, _, _, _⟩) nofun hs
      · refine ihn ?_ hs
        exact h
  | jump | ret | stuck =>
    obtain ⟨rfl, rfl⟩ := Prod.mk.inj (List.mem_singleton.mp hs)
    exact h

section Walk

variable {flat : List LiftedInstruction} {g : Function}
  {backEdges : Finset (Address × Address)} {r : Region} (hw : IsWalk flat g backEdges r)

include hw

theorem IsWalk.fallsSafely {b : BasicBlock} {t : Address} {seen : Finset Address}
    {stop fall : Option Address} (htaken : ∀ a, Reachable g a → a ∈ r.labels)
    (hb : b ∈ g.blocks) (hreach : Reachable g b.startAddress) {cond : Varnode} {f : Address}
    (hexit : exitOf b = .cond cond t f) (hfall : stop = none → fall = none)
    (h : FallsOn g.blocks b t seen stop) : FallsSafely g.blocks r.labels b t seen fall := by
  rw [FallsOn] at h
  rw [FallsSafely]
  cases hnext : nextAfter g.blocks b.startAddress with
  | none =>
    rw [hnext] at h
    exact hfall h
  | some n =>
    rw [hnext] at h
    refine ⟨h.1, htaken n ?_, h.2⟩
    obtain ⟨c, hc, rfl⟩ := (nextAfter_eq_some hw.graph.nodup_starts hb).mp hnext
    have hterm := hasExit hw.graph hw.yielded hb
    rw [hexit] at hterm
    cases hterm with
    | cond hterm =>
      refine hreach.tail ((edge_iff hw.graph.linked).mpr ⟨b, hb, rfl, ?_⟩)
      exact (mem_successors_iff hw.graph hw.yielded hb).mpr (.inr ⟨.inr ⟨_, hterm, rfl⟩, hnext⟩)

/-- A walk that takes every reachable block is safe where it keeps the edge. -/
theorem IsWalk.safe_of_keepsEdge (htaken : ∀ a, Reachable g a → a ∈ r.labels) {y : Context}
    {n : Region} (hs : (y, n) ∈ r.sites .top) {taken : Bool}
    (h : KeepsEdge g.blocks y n taken) : Safe g.blocks r.labels y n taken := by
  obtain ⟨curr, hexp⟩ := hw.explores.site hs
  have hfall := Region.fall_eq_none (fun _ => rfl) hs
  have hreach : ∀ b : BasicBlock, n.head? = some b.startAddress → Reachable g b.startAddress :=
    fun _ hhead => hw.explores.reachable_of_mem_labels hw.graph hw.yielded
      (Region.mem_labels_of_mem_sites hs hhead)
  have hlabel : ∀ b ∈ g.blocks, n.head? = some b.startAddress → ∀ a ∈ (exitOf b).targets,
      a ∈ starts g.blocks → a ∈ r.labels := fun b hb hhead a ha hstart =>
    htaken a (reachable_of_mem_targets hw.graph hw.yielded hb (hreach b hhead) ha hstart)
  have hback : ∀ {b a : Address}, (b, a) ∈ backEdges → a ∈ starts g.blocks := fun hback =>
    Cfg.mem_starts.mpr (exists_block_of_edge hw.graph.linked (hw.back.edge _ _ hback))
  cases n with
  | skip | missing | ret => trivial
  | loop b cond t f next =>
    cases hexp with
    | loop takes exit isBack _ =>
      cases taken with
      | true =>
        exact hlabel b takes.mem rfl t (by simp [exit, Exit.targets]) (hback isBack)
      | false => exact hw.fallsSafely htaken takes.mem (hreach b rfl) exit hfall h
  | doWhile b cond t f body =>
    cases hexp with
    | doWhile takes exit _ isBack _ =>
      cases taken with
      | true => exact ⟨hlabel b takes.mem rfl t (by simp [exit, Exit.targets]) h.1, h.2⟩
      | false =>
        exact hlabel b takes.mem rfl f (by simp [exit, Exit.targets]) (hback isBack)
  | fork b cond t f body next =>
    cases hexp with
    | fork takes exit _ _ _ _ =>
      cases taken with
      | true => exact ⟨hlabel b takes.mem rfl t (by simp [exit, Exit.targets]) h.1, h.2⟩
      | false => exact hw.fallsSafely htaken takes.mem (hreach b rfl) exit hfall h
  | jump b a =>
    cases hexp with
    | jump takes exit =>
      refine hlabel b takes.mem rfl a ?_
      rcases exit with ⟨exit, -⟩ | ⟨exit | exit, -⟩ <;> simp [exit, Exit.targets]
  | go b a next =>
    cases hexp with
    | go takes exit _ _ =>
      refine hlabel b takes.mem rfl a ?_ h
      rcases exit with ⟨exit, -⟩ | exit <;> simp [exit, Exit.targets]
  | stuck => exact hfall h

end Walk

variable {name : String} {entry : Address} {flat : List LiftedInstruction} {g : Function}

/-- If the walk closes no loop whose head is still before it, the steps along the edges that it
keeps are safe. -/
theorem safeAt_of_keepsAt (hflat : IsYielded entry flat)
    (hg : build (.ofStream name entry flat) = .ok g) (hclosed : ClosesLoops g)
    {outcomes : ℕ → Bool} {c : Config Place} (h : KeepsAt g outcomes c) : SafeAt g outcomes c := by
  obtain ⟨r, hr, hkeeps⟩ := h
  refine ⟨r, hr, fun p hp hc => ?_⟩
  rcases (walk_of_build hflat hg).2 with ⟨-, -, hregion⟩ | ⟨backEdges, r', hw⟩
  · obtain rfl := Except.ok.inj (hr.symm.trans hregion)
    cases hp
  · obtain rfl := Except.ok.inj (hr.symm.trans hw.region)
    have htaken := hw.entersLoops_iff.mp (hw.entersLoops hclosed)
    exact hw.safe_of_keepsEdge htaken hp (hkeeps p hp hc)

end Decompiler.Structurer
