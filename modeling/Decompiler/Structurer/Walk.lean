import Decompiler.Structurer.Exits

/-! # What the walk takes

The walk takes reachable blocks, each of them once. It goes on to every successor
except along back edges, at its stop address and at what it has seen, so that a
reachable block can only be left out when it is the stop address of a region after
which nothing comes.
-/

namespace Decompiler.Structurer

open Cfg

section Entry

variable {flat : List LiftedInstruction} {g : Function} (hg : IsGraphOf flat g)
  (hflat : IsYielded g.entry flat)

include hflat

theorem entry_le {li : LiftedInstruction} (hli : li ∈ flat) : g.entry ≤ li.address := by
  cases flat with
  | nil => cases hli
  | cons first rest =>
    rw [← hflat.head first rfl]
    rcases List.mem_cons.mp hli with rfl | hmem
    · exact UInt64.le_refl _
    · have hsorted := hflat.sorted
      rw [List.map_cons, List.pairwise_cons] at hsorted
      exact UInt64.le_of_lt (hsorted.1 _ (List.mem_map_of_mem hmem))

include hg

theorem entry_le_start {b : BasicBlock} (hb : b ∈ g.blocks) : g.entry ≤ b.startAddress := by
  obtain ⟨first, hfirst, haddr⟩ := hg.cfg.exists_head hb
  rw [← haddr]
  exact entry_le hflat (hg.cfg.mem_flat hb (List.mem_of_head? hfirst))

theorem exists_entry (hne : g.blocks ≠ []) : ∃ b ∈ g.blocks, b.startAddress = g.entry := by
  obtain ⟨c, hc⟩ := List.exists_mem_of_ne_nil _ hne
  obtain ⟨li, hli, -⟩ := hg.cfg.exists_head hc
  have hmem := hg.cfg.mem_flat hc (List.mem_of_head? hli)
  obtain ⟨first, hfirst⟩ : ∃ first, flat.head? = some first :=
    ⟨_, List.head?_eq_some_head (List.ne_nil_of_mem hmem)⟩
  have haddr := hflat.head first hfirst
  obtain ⟨b, hb, hin⟩ := hg.cfg.split.mem_flat_iff.mp (List.mem_of_head? hfirst)
  refine ⟨b, hb, ?_⟩
  rw [(hg.cfg.split.eq_head_of_leader hb hin (Or.inl (Or.inl haddr))).2, haddr]

end Entry

namespace Region

def labels (r : Region) : List Address := r.taken.map BasicBlock.startAddress

/-- The loop heads that a `goto` behind a condition jumps back to. -/
def loopHeads : Region → List Address
  | skip | missing _ => []
  | loop _ _ _ _ next => next.loopHeads
  | doWhile _ _ _ f body => f :: body.loopHeads
  | fork _ _ _ _ body next => body.loopHeads ++ next.loopHeads
  | jump _ _ | ret _ | stuck _ => []
  | go _ _ next => next.loopHeads

end Region

variable {bs : List BasicBlock} {backEdges : Finset (Address × Address)} {curr : Address}
  {stop : Option Address} {seen : Finset Address} {r : Region}

namespace Explores

theorem mem_visits_of_mem_labels {a : Address} (ha : a ∈ r.labels) : a ∈ r.visits := by
  induction r with
  | skip | missing => cases ha
  | loop _ _ _ _ _ ih | go _ _ _ ih | doWhile _ _ _ _ _ ih =>
    rcases List.mem_cons.mp ha with rfl | ha
    · exact Finset.mem_insert_self _ _
    · exact Finset.mem_insert_of_mem (ih ha)
  | fork _ _ _ _ _ _ ihb ihn =>
    rcases List.mem_cons.mp ha with rfl | ha
    · exact Finset.mem_insert_self _ _
    · rw [List.map_append, List.mem_append] at ha
      exact Finset.mem_insert_of_mem (Finset.mem_union.mpr (ha.imp ihb ihn))
  | jump | ret | stuck =>
    obtain rfl := List.mem_singleton.mp ha
    exact Finset.mem_singleton_self _

/-- An address that the walk visits is the start of a block that it takes, unless no
block starts there. -/
theorem mem_labels_of_mem_visits (h : Explores bs backEdges curr stop seen r) {a : Address}
    (ha : a ∈ r.visits) (hstart : a ∈ starts bs) : a ∈ r.labels := by
  induction h with
  | skip => simp [Region.visits] at ha
  | missing _ _ hnone =>
    obtain rfl := Finset.mem_singleton.mp ha
    obtain ⟨b, hb, hba⟩ := mem_starts.mp hstart
    exact absurd hba (by simpa using List.find?_eq_none.mp hnone b hb)
  | loop _ _ _ _ ih | go _ _ _ _ ih | doWhile _ _ _ _ _ ih =>
    rcases Finset.mem_insert.mp ha with rfl | ha
    · exact List.mem_cons_self
    · exact List.mem_cons_of_mem _ (ih ha)
  | fork _ _ _ _ _ _ ihb ihn =>
    rcases Finset.mem_insert.mp ha with rfl | ha
    · exact List.mem_cons_self
    · refine List.mem_cons_of_mem _ ?_
      rw [List.map_append, List.mem_append]
      rcases Finset.mem_union.mp ha with ha | ha
      · exact Or.inl (ihb ha)
      · exact Or.inr (ihn ha)
  | jump | ret | stuck =>
    obtain rfl := Finset.mem_singleton.mp ha
    exact List.mem_singleton_self _

theorem mem_of_start (h : Explores bs backEdges curr stop seen r) (hstart : curr ∈ starts bs) :
    curr ∈ r.labels ∨ curr ∈ seen ∨ some curr = stop := by
  cases h with
  | skip h => exact .inr h.symm
  | missing _ _ hnone =>
    obtain ⟨b, hb, hba⟩ := mem_starts.mp hstart
    exact absurd hba (by simpa using List.find?_eq_none.mp hnone b hb)
  | loop takes | doWhile takes | fork takes | jump takes | go takes | ret takes | stuck takes =>
    exact .inl (takes.start ▸ List.mem_cons_self)

theorem mem_of_mem_taken (h : Explores bs backEdges curr stop seen r) {b : BasicBlock}
    (hb : b ∈ r.taken) : b ∈ bs := by
  induction h with
  | skip | missing => cases hb
  | loop takes _ _ _ ih | go takes _ _ _ ih | doWhile takes _ _ _ _ ih =>
    rcases List.mem_cons.mp hb with rfl | hb
    · exact takes.mem
    · exact ih hb
  | fork takes _ _ _ _ _ ihb ihn =>
    rcases List.mem_cons.mp hb with rfl | hb
    · exact takes.mem
    · exact (List.mem_append.mp hb).elim ihb ihn
  | jump takes | ret takes | stuck takes =>
    obtain rfl := List.mem_singleton.mp hb
    exact takes.mem

theorem not_seen_of_mem_visits (h : Explores bs backEdges curr stop seen r) {a : Address}
    (ha : a ∈ r.visits) : a ∉ seen := by
  induction h with
  | skip => simp [Region.visits] at ha
  | missing _ hseen _ =>
    obtain rfl := Finset.mem_singleton.mp ha
    exact hseen
  | loop takes _ _ _ ih | go takes _ _ _ ih | doWhile takes _ _ _ _ ih =>
    rcases Finset.mem_insert.mp ha with rfl | ha
    · exact takes.start ▸ takes.not_seen
    · exact fun hs => ih ha (Finset.mem_insert_of_mem hs)
  | fork takes _ _ _ _ _ ihb ihn =>
    rcases Finset.mem_insert.mp ha with rfl | ha
    · exact takes.start ▸ takes.not_seen
    · rcases Finset.mem_union.mp ha with ha | ha
      · exact fun hs => ihb ha (Finset.mem_insert_of_mem hs)
      · exact fun hs => ihn ha (Finset.mem_union_left _ (Finset.mem_insert_of_mem hs))
  | jump takes | ret takes | stuck takes =>
    obtain rfl := Finset.mem_singleton.mp ha
    exact takes.start ▸ takes.not_seen

theorem not_mem_labels (h : Explores bs backEdges curr stop seen r) {a : Address}
    (ha : a ∈ seen) : a ∉ r.labels :=
  fun hmem => h.not_seen_of_mem_visits (mem_visits_of_mem_labels hmem) ha

theorem nodup_labels (h : Explores bs backEdges curr stop seen r) : r.labels.Nodup := by
  induction h with
  | skip | missing => exact List.nodup_nil
  | loop takes _ _ inner ih | go takes _ _ inner ih | doWhile takes _ _ _ inner ih =>
    exact List.nodup_cons.mpr
      ⟨inner.not_mem_labels (takes.start ▸ Finset.mem_insert_self _ _), ih⟩
  | fork takes _ _ _ inner more ihb ihn =>
    rw [Region.labels, Region.taken, List.map_cons, List.map_append, List.nodup_cons, takes.start]
    refine ⟨fun hmem => ?_, List.nodup_append'.mpr ⟨ihb, ihn, fun a hb hn => ?_⟩⟩
    · rcases List.mem_append.mp hmem with hb | hn
      · exact inner.not_mem_labels (Finset.mem_insert_self _ _) hb
      · exact more.not_mem_labels (Finset.mem_union_left _ (Finset.mem_insert_self _ _)) hn
    · exact more.not_mem_labels (Finset.mem_union_right _ (mem_visits_of_mem_labels hb)) hn
  | jump | ret | stuck => exact List.nodup_singleton _

end Explores

def Exit.branch? : Exit → Option Address
  | .jump t => some t
  | _ => Option.none

theorem Exit.branch?_eq_some {e : Exit} {a : Address} : e.branch? = some a ↔ e = .jump a := by
  cases e <;> simp [branch?]

/-- The addresses that the walk distinguishes at the end of a block. -/
def Exit.targets : Exit → List Address
  | .cond _ t f => [t, f]
  | .jump t => [t]
  | .next a => [a]
  | .ret | .none => []

/-- Where the walk goes on: to its first address and to the successors of the blocks that
it takes, except along back edges. -/
def Pending (backEdges : Finset (Address × Address)) (curr : Address) (r : Region)
    (a : Address) : Prop :=
  a = curr ∨ ∃ b ∈ r.taken, a ∈ b.successors ∧ (b.startAddress, a) ∉ backEdges

section Graph

variable {flat : List LiftedInstruction} {g : Function} (hg : IsGraphOf flat g)
  (hflat : IsYielded g.entry flat)

include hg hflat

theorem mem_targets_of_mem_successors {b : BasicBlock} (hb : b ∈ g.blocks) {a : Address}
    (ha : a ∈ b.successors) : a ∈ (exitOf b).targets := by
  have hexit := hasExit hg hflat hb
  rw [mem_successors_iff hg hflat hb] at ha
  generalize exitOf b = e at hexit
  cases hexit with
  | cond hterm hfalls =>
    rw [hterm] at ha
    rcases ha with ⟨⟨op, hop, ht⟩, -⟩ | ⟨-, hnext⟩
    · obtain rfl := Option.some.inj hop
      obtain rfl := Option.some.inj ht
      exact List.mem_cons_self
    · rcases hfalls with ⟨-, hf⟩ | ⟨-, hall⟩
      · obtain rfl := Option.some.inj (hf.symm.trans hnext)
        exact List.mem_cons_of_mem _ List.mem_cons_self
      · rw [hall a hnext]
        exact List.mem_cons_self
  | jump hterm =>
    rw [hterm] at ha
    rcases ha with ⟨⟨op, hop, ht⟩, -⟩ | ⟨h | ⟨op, hop, hc⟩, -⟩
    · obtain rfl := Option.some.inj hop
      obtain rfl := Option.some.inj ht
      exact List.mem_cons_self
    · cases h
    · obtain rfl := Option.some.inj hop
      cases hc
  | ret hterm =>
    rw [hterm] at ha
    rcases ha with ⟨⟨op, hop, ht⟩, -⟩ | ⟨h | ⟨op, hop, hc⟩, -⟩
    · obtain rfl := Option.some.inj hop
      cases ht
    · cases h
    · obtain rfl := Option.some.inj hop
      cases hc
  | next hterm hfalls =>
    rw [hterm, hfalls] at ha
    rcases ha with ⟨⟨op, hop, -⟩, -⟩ | ⟨-, hnext⟩
    · cases hop
    · obtain rfl := Option.some.inj hnext
      exact List.mem_cons_self
  | none hterm hfalls =>
    rw [hterm, hfalls] at ha
    rcases ha with ⟨⟨op, hop, -⟩, -⟩ | ⟨-, hnext⟩
    · cases hop
    · cases hnext

/-- A target at which a block starts is reachable. The address 0 stands for a missing
successor, and a block that starts there is the entry. -/
theorem reachable_of_mem_targets {b : BasicBlock} (hb : b ∈ g.blocks)
    (hreach : Reachable g b.startAddress) {a : Address} (ha : a ∈ (exitOf b).targets)
    (hstart : a ∈ starts g.blocks) : Reachable g a := by
  have hblock := mem_starts.mp hstart
  have hedge : ((∃ op, b.terminator? = some op ∧ op.branchTarget? = some a) ∧
      ∃ c ∈ g.blocks, c.startAddress = a) ∨
      ((b.terminator? = none ∨ ∃ op, b.terminator? = some op ∧ op.isCbranch) ∧
        nextAfter g.blocks b.startAddress = some a) → Reachable g a := by
    intro h
    exact hreach.tail ((edge_iff hg.linked).mpr
      ⟨b, hb, rfl, (mem_successors_iff hg hflat hb).mpr h⟩)
  have hexit := hasExit hg hflat hb
  generalize exitOf b = e at hexit ha
  cases hexit with
  | @cond c t f hterm hfalls =>
    rcases List.mem_cons.mp ha with rfl | ha
    · exact hedge (Or.inl ⟨⟨_, hterm, rfl⟩, hblock⟩)
    · obtain rfl := List.mem_singleton.mp ha
      rcases hfalls with ⟨-, hf⟩ | ⟨rfl, -⟩
      · exact hedge (Or.inr ⟨Or.inr ⟨_, hterm, rfl⟩, hf⟩)
      · obtain ⟨c, hc, hzero⟩ := hblock
        have hle := entry_le_start hg hflat hc
        rw [hzero] at hle
        rw [← UInt64.le_antisymm hle UInt64.zero_le]
        exact .refl
  | jump hterm =>
    obtain rfl := List.mem_singleton.mp ha
    exact hedge (Or.inl ⟨⟨_, hterm, rfl⟩, hblock⟩)
  | next hterm hfalls =>
    obtain rfl := List.mem_singleton.mp ha
    exact hedge (Or.inr ⟨Or.inl hterm, hfalls⟩)
  | ret | none => cases ha

theorem Explores.reachable (h : Explores g.blocks backEdges curr stop seen r)
    (hcurr : curr ∈ starts g.blocks → Reachable g curr) : ∀ a ∈ r.labels, Reachable g a := by
  have hself : ∀ {a stop seen b}, Takes g.blocks a stop seen b →
      (a ∈ starts g.blocks → Reachable g a) → Reachable g b.startAddress := by
    intro a stop seen b takes ha
    rw [takes.start]
    exact ha (mem_starts.mpr ⟨b, takes.mem, takes.start⟩)
  have hnext : ∀ {b a}, b ∈ g.blocks → Reachable g b.startAddress → a ∈ (exitOf b).targets →
      a ∈ starts g.blocks → Reachable g a :=
    fun hb hreach ha => reachable_of_mem_targets hg hflat hb hreach ha
  induction h with
  | skip | missing => simp [Region.labels, Region.taken]
  | loop takes exit _ _ ih =>
    have hb := hself takes hcurr
    exact List.forall_mem_cons.mpr ⟨hb, ih (hnext takes.mem hb (by simp [exit, Exit.targets]))⟩
  | doWhile takes exit _ _ _ ih =>
    have hb := hself takes hcurr
    exact List.forall_mem_cons.mpr ⟨hb, ih (hnext takes.mem hb (by simp [exit, Exit.targets]))⟩
  | fork takes exit _ _ _ _ ihb ihn =>
    have hb := hself takes hcurr
    rw [Region.labels, Region.taken, List.map_cons, List.map_append, List.forall_mem_cons,
      List.forall_mem_append]
    exact ⟨hb, ihb (hnext takes.mem hb (by simp [exit, Exit.targets])),
      ihn (hnext takes.mem hb (by simp [exit, Exit.targets]))⟩
  | go takes exit _ _ ih =>
    have hb := hself takes hcurr
    refine List.forall_mem_cons.mpr ⟨hb, ih (hnext takes.mem hb ?_)⟩
    rcases exit with ⟨exit, -⟩ | exit <;> simp [exit, Exit.targets]
  | jump takes | ret takes | stuck takes =>
    exact List.forall_mem_cons.mpr ⟨hself takes hcurr, List.forall_mem_nil _⟩

theorem Takes.pending_cases {b : BasicBlock} (takes : Takes g.blocks curr stop seen b)
    {l : List BasicBlock} {a : Address}
    (ha : a = curr ∨ ∃ b' ∈ b :: l, a ∈ b'.successors ∧ (b'.startAddress, a) ∉ backEdges) :
    a = b.startAddress ∨ (a ∈ (exitOf b).targets ∧ (curr, a) ∉ backEdges) ∨
      ∃ b' ∈ l, a ∈ b'.successors ∧ (b'.startAddress, a) ∉ backEdges := by
  obtain rfl := takes.start
  rcases ha with rfl | ⟨b', hb', hsucc, hback⟩
  · exact Or.inl rfl
  · rcases List.mem_cons.mp hb' with rfl | hb'
    · exact Or.inr (Or.inl ⟨mem_targets_of_mem_successors hg hflat takes.mem hsucc, hback⟩)
    · exact Or.inr (Or.inr ⟨b', hb', hsucc, hback⟩)

omit hg hflat in
theorem Takes.covered_cons {b : BasicBlock} (takes : Takes bs curr stop seen b)
    {l : List Address} {P : Prop} {a : Address} (h : a ∈ l ∨ a ∈ insert curr seen ∨ P) :
    a ∈ b.startAddress :: l ∨ a ∈ seen ∨ P := by
  obtain rfl := takes.start
  rcases h with hl | hs | hP
  · exact Or.inl (List.mem_cons_of_mem _ hl)
  · rcases Finset.mem_insert.mp hs with rfl | hs
    · exact Or.inl List.mem_cons_self
    · exact Or.inr (Or.inl hs)
  · exact Or.inr (Or.inr hP)

omit hg hflat in
theorem covered_of_stop {heads : Set Address} {a f : Address} (hf : f ∈ heads) {l : List Address}
    {seen : Finset Address} {P : Prop} (h : a ∈ l ∨ a ∈ seen ∨ some a = some f ∨ a ∈ heads) :
    a ∈ l ∨ a ∈ seen ∨ P ∨ a ∈ heads := by
  rcases h with h | h | h | h
  · exact Or.inl h
  · exact Or.inr (Or.inl h)
  · exact Or.inr (Or.inr (Or.inr (Option.some.inj h ▸ hf)))
  · exact Or.inr (Or.inr (Or.inr h))

/-- Every block that the walk comes to is taken, has been seen or is where the walk
stops; `heads` holds the heads of the loops that close behind a condition. -/
theorem Explores.covered (h : Explores g.blocks backEdges curr stop seen r) {heads : Set Address}
    (hheads : ∀ f ∈ r.loopHeads, f ∈ heads) {a : Address} (hstart : a ∈ starts g.blocks)
    (ha : Pending backEdges curr r a) :
    a ∈ r.labels ∨ a ∈ seen ∨ some a = stop ∨ a ∈ heads := by
  induction h with
  | skip h =>
    rcases ha with rfl | ⟨b, hb, -⟩
    · rcases h with h | h
      · exact Or.inr (Or.inr (Or.inl h))
      · exact Or.inr (Or.inl h)
    · cases hb
  | missing _ _ hnone =>
    rcases ha with rfl | ⟨b, hb, -⟩
    · obtain ⟨b, hb, hba⟩ := mem_starts.mp hstart
      exact absurd hba (by simpa using List.find?_eq_none.mp hnone b hb)
    · cases hb
  | loop takes exit hback _ ih =>
    rcases takes.pending_cases hg hflat ha with rfl | ⟨ht, hnot⟩ | hrest
    · exact Or.inl List.mem_cons_self
    · simp only [exit, Exit.targets, List.mem_cons, List.not_mem_nil, or_false] at ht
      rcases ht with rfl | rfl
      · exact absurd hback hnot
      · exact takes.covered_cons (ih hheads (Or.inl rfl))
    · exact takes.covered_cons (ih hheads (Or.inr hrest))
  | doWhile takes exit _ hback _ ih =>
    obtain ⟨hf, hbody⟩ := List.forall_mem_cons.mp hheads
    rcases takes.pending_cases hg hflat ha with rfl | ⟨ht, hnot⟩ | hrest
    · exact Or.inl List.mem_cons_self
    · simp only [exit, Exit.targets, List.mem_cons, List.not_mem_nil, or_false] at ht
      rcases ht with rfl | rfl
      · exact takes.covered_cons (covered_of_stop hf (ih hbody (Or.inl rfl)))
      · exact absurd hback hnot
    · exact takes.covered_cons (covered_of_stop hf (ih hbody (Or.inr hrest)))
  | @fork curr t f stop seen b cond body next takes exit _ _ inner more ihb ihn =>
    obtain ⟨hbody, hnext⟩ := List.forall_mem_append.mp hheads
    have hmore : Pending backEdges f next a → a ∈ body.labels ++ next.labels ∨
        a ∈ insert curr seen ∨ some a = stop ∨ a ∈ heads := by
      intro hp
      rcases ihn hnext hp with h | h | h
      · exact Or.inl (List.mem_append_right _ h)
      · rcases Finset.mem_union.mp h with h | h
        · exact Or.inr (Or.inl h)
        · exact Or.inl (List.mem_append_left _ (inner.mem_labels_of_mem_visits h hstart))
      · exact Or.inr (Or.inr h)
    -- the walk goes on at the stop address of the body
    have hinner : Pending backEdges t body a → a ∈ body.labels ++ next.labels ∨
        a ∈ insert curr seen ∨ some a = stop ∨ a ∈ heads := by
      intro hp
      rcases ihb hbody hp with h | h | h | h
      · exact Or.inl (List.mem_append_left _ h)
      · exact Or.inr (Or.inl h)
      · exact hmore (Or.inl (Option.some.inj h))
      · exact Or.inr (Or.inr (Or.inr h))
    have hlabels : (Region.fork b cond t f body next).labels =
        b.startAddress :: (body.labels ++ next.labels) := by
      simp [Region.labels, Region.taken]
    rw [hlabels]
    rcases takes.pending_cases hg hflat ha with rfl | ⟨ht, -⟩ | ⟨b', hb', hrest⟩
    · exact Or.inl List.mem_cons_self
    · simp only [exit, Exit.targets, List.mem_cons, List.not_mem_nil, or_false] at ht
      rcases ht with rfl | rfl
      · exact takes.covered_cons (hinner (Or.inl rfl))
      · exact takes.covered_cons (hmore (Or.inl rfl))
    · rcases List.mem_append.mp hb' with hb' | hb'
      · exact takes.covered_cons (hinner (Or.inr ⟨b', hb', hrest⟩))
      · exact takes.covered_cons (hmore (Or.inr ⟨b', hb', hrest⟩))
  | @jump curr target stop seen b takes exit =>
    rcases takes.pending_cases hg hflat ha with rfl | ⟨ht, hnot⟩ | ⟨_, hb', -⟩
    · exact Or.inl List.mem_cons_self
    · rcases exit with ⟨exit, hback⟩ | ⟨exit, hseen⟩
      · rw [exit] at ht
        obtain rfl := List.mem_singleton.mp ht
        exact absurd hback hnot
      · have heq : a = target := by
          rcases exit with exit | exit <;> simpa [exit, Exit.targets] using ht
        exact takes.covered_cons (Or.inr (Or.inl (heq ▸ hseen)))
    · cases hb'
  | @go curr target stop seen b next takes exit _ _ ih =>
    rcases takes.pending_cases hg hflat ha with rfl | ⟨ht, -⟩ | hrest
    · exact Or.inl List.mem_cons_self
    · have heq : a = target := by
        rcases exit with ⟨exit, -⟩ | exit <;> simpa [exit, Exit.targets] using ht
      exact takes.covered_cons (ih hheads (Or.inl heq))
    · exact takes.covered_cons (ih hheads (Or.inr hrest))
  | ret takes exit | stuck takes exit =>
    rcases takes.pending_cases hg hflat ha with rfl | ⟨ht, -⟩ | ⟨_, hb', -⟩
    · exact Or.inl List.mem_cons_self
    · rw [exit] at ht
      cases ht
    · cases hb'

omit hg hflat in
theorem Explores.exists_back_of_mem_loopHeads (h : Explores g.blocks backEdges curr stop seen r)
    {f : Address} (hf : f ∈ r.loopHeads) : ∃ b ∈ r.taken, (b.startAddress, f) ∈ backEdges := by
  induction h with
  | skip | missing | jump | ret | stuck => cases hf
  | loop _ _ _ _ ih | go _ _ _ _ ih =>
    obtain ⟨b, hb, hback⟩ := ih hf
    exact ⟨b, List.mem_cons_of_mem _ hb, hback⟩
  | doWhile takes _ _ hback _ ih =>
    rcases List.mem_cons.mp hf with rfl | hf
    · exact ⟨_, List.mem_cons_self, takes.start ▸ hback⟩
    · obtain ⟨b, hb, hback⟩ := ih hf
      exact ⟨b, List.mem_cons_of_mem _ hb, hback⟩
  | fork _ _ _ _ _ _ ihb ihn =>
    rcases List.mem_append.mp hf with hf | hf
    · obtain ⟨b, hb, hback⟩ := ihb hf
      exact ⟨b, List.mem_cons_of_mem _ (List.mem_append_left _ hb), hback⟩
    · obtain ⟨b, hb, hback⟩ := ihn hf
      exact ⟨b, List.mem_cons_of_mem _ (List.mem_append_right _ hb), hback⟩

variable (h : Explores g.blocks backEdges g.entry none ∅ r)

include h

theorem Explores.reachable_of_mem_labels {a : Address} (ha : a ∈ r.labels) : Reachable g a :=
  h.reachable hg hflat (fun _ => .refl) a ha

/-- The whole walk takes every reachable block exactly if it takes the heads of the loops
that close behind a condition. -/
theorem Explores.forall_reachable_iff (hback : IsBackEdges g backEdges)
    (hentry : g.entry ∈ starts g.blocks) :
    (∀ a, Reachable g a → a ∈ r.labels) ↔ ∀ f ∈ r.loopHeads, f ∈ r.labels := by
  constructor
  · intro hall f hf
    obtain ⟨b, hb, hbf⟩ := h.exists_back_of_mem_loopHeads hf
    have hreach := h.reachable_of_mem_labels hg hflat (List.mem_map_of_mem hb)
    exact hall f (hreach.tail (hback.edge _ _ hbf))
  · intro hheads a ha
    have hcover : ∀ {a}, a ∈ starts g.blocks → Pending backEdges g.entry r a → a ∈ r.labels := by
      intro a hstart hp
      have hheads' : ∀ f ∈ r.loopHeads, f ∈ {a | a ∈ r.labels} := hheads
      rcases h.covered hg hflat hheads' hstart hp with h | h | h | h
      · exact h
      · exact absurd h (Finset.notMem_empty a)
      · cases h
      · exact h
    induction hback.reached a ha with
    | refl => exact hcover hentry (Or.inl rfl)
    | tail path hstep ih =>
      obtain ⟨hedge, hnot⟩ := hstep
      have hpath := Relation.ReflTransGen.mono (fun _ _ h => h.1) _ _ path
      obtain ⟨b, hb, hstart⟩ := List.mem_map.mp (ih hpath)
      obtain ⟨b', hb', hstart', hsucc⟩ := (edge_iff hg.linked).mp hedge
      obtain rfl := hg.cfg.eq_of_start hg.nodup (h.mem_of_mem_taken hb) hb'
        (hstart.trans hstart'.symm)
      refine hcover (mem_starts.mpr (exists_block_of_edge hg.linked hedge)) (Or.inr ⟨b, hb, hsucc, ?_⟩)
      rwa [hstart]

end Graph

/-- The whole walk of the function that is built from a stream, and its syntax tree. -/
structure IsWalk (flat : List LiftedInstruction) (g : Function)
    (backEdges : Finset (Address × Address)) (r : Region) : Prop where
  graph : IsGraphOf flat g
  yielded : IsYielded g.entry flat
  entry : g.entry ∈ starts g.blocks
  back : IsBackEdges g backEdges
  found : findBackEdges g = .ok backEdges
  region : regionOf g = .ok r
  explores : Explores g.blocks backEdges g.entry none ∅ r
  ast : doStructure g = .ok (wrapNodes r.nodes)

theorem IsWalk.mem_labels_iff {flat : List LiftedInstruction} {g : Function}
    (h : IsWalk flat g backEdges r) {a : Address} :
    a ∈ r.labels ↔ ∃ b ∈ r.taken, b ∈ g.blocks ∧ b.startAddress = a := by
  rw [Region.labels, List.mem_map]
  constructor
  · rintro ⟨b, hb, ha⟩
    exact ⟨b, hb, h.explores.mem_of_mem_taken hb, ha⟩
  · rintro ⟨b, hb, -, ha⟩
    exact ⟨b, hb, ha⟩

/-- A function without blocks has an empty syntax tree; of every other one there is a
whole walk. -/
theorem walk_of_build {name : String} {entry : Address} {flat : List LiftedInstruction}
    {g : Function} (hflat : IsYielded entry flat) (hg : build (.ofStream name entry flat) = .ok g) :
    g.entry = entry ∧
      (g.blocks = [] ∧ doStructure g = .ok (.seq []) ∧ regionOf g = .ok (.missing g.entry) ∨
        ∃ backEdges r, IsWalk flat g backEdges r) := by
  obtain ⟨g', hg', rfl, hgraph⟩ := @build_ofStream name entry flat hflat.nodup
  obtain rfl := Except.ok.inj (hg.symm.trans hg')
  refine ⟨rfl, ?_⟩
  by_cases hnil : g.blocks = []
  · have hnone : g.blockAt g.entry = .ok none := by
      rw [hgraph.blockAt, hnil]
      rfl
    refine Or.inl ⟨hnil, by rw [doStructure, if_pos hnil]; rfl, ?_⟩
    have hfind : findBackEdges g = .ok ∅ := by
      rw [findBackEdges, hnil, List.flatMap_nil, List.length_nil, Nat.zero_add, dfsBackEdges, hnone]
      rfl
    rw [regionOf, hfind, hnil]
    rfl
  · obtain ⟨b, hb, hbe⟩ := exists_entry hgraph hflat hnil
    obtain ⟨backEdges, r, hback, hfound, hregion, hexp, hast⟩ :=
      doStructure_eq_ok hgraph.linked ⟨b, hb, hbe⟩
    exact Or.inr ⟨backEdges, r, hgraph, hflat, mem_starts.mpr ⟨b, hb, hbe⟩, hback, hfound, hregion,
      hexp, hast⟩

end Decompiler.Structurer
