import Decompiler.Structurer.Machine

/-! # Sites of a walk

A site is a block that the walk takes, together with what surrounds it: the state of the
walk and the text behind its region. A label is found at its site.
-/

namespace Decompiler.Structurer

open Cfg

/-- What surrounds a region: the stop address of its walk, what the walk has seen before,
the block that the text behind the region leads to, and that text. -/
structure Context where
  stop : Option Address
  seen : Finset Address
  fall : Option Address
  rest : List HighLevelAst

def Context.top : Context := ⟨none, ∅, none, []⟩

def codeNodes (b : BasicBlock) : List HighLevelAst :=
  if b.plainOps = [] then [] else [.block b.startAddress b.plainOps]

theorem headNodes_eq (b : BasicBlock) : headNodes b = .label b.startAddress :: codeNodes b := by
  rw [headNodes, blockNodes, Scan.ops_ofBlock, codeNodes]

namespace Region

def head? (r : Region) : Option Address := r.labels.head?

/-- Where the text of a region leads, if the text behind it leads to `fall`. -/
def leadsTo (r : Region) (fall : Option Address) : Option Address := r.head?.or fall

/-- The contexts of the blocks that a region takes, each with the region from the block
on. -/
def sites : Region → Context → List (Context × Region)
  | skip, _ | missing _, _ => []
  | loop b cond t f next, x =>
    (x, loop b cond t f next) :: next.sites { x with seen := insert b.startAddress x.seen }
  | doWhile b cond t f body, x =>
    (x, doWhile b cond t f body) ::
      body.sites ⟨some f, insert b.startAddress x.seen, some f, .goto f :: x.rest⟩
  | fork b cond t f body next, x =>
    let seen := insert b.startAddress x.seen
    (x, fork b cond t f body next) ::
      (body.sites ⟨some f, seen, next.leadsTo x.fall, next.nodes ++ x.rest⟩ ++
        next.sites { x with seen := seen ∪ body.visits })
  | jump b target, x => [(x, jump b target)]
  | go b target next, x =>
    (x, go b target next) :: next.sites { x with seen := insert b.startAddress x.seen }
  | ret b, x => [(x, ret b)]
  | stuck b, x => [(x, stuck b)]

theorem mem_labels_of_mem_sites {r n : Region} {x y : Context} (h : (y, n) ∈ r.sites x)
    {a : Address} (ha : n.head? = some a) : a ∈ r.labels := by
  have hself : ∀ {r : Region}, r.head? = some a → a ∈ r.labels := fun h => List.mem_of_head? h
  induction r generalizing x with
  | skip | missing => cases h
  | loop _ _ _ _ next ih | go _ _ next ih | doWhile _ _ _ _ next ih =>
    rcases List.mem_cons.mp h with h | h
    · obtain ⟨rfl, rfl⟩ := Prod.mk.inj h
      exact hself ha
    · exact List.mem_cons_of_mem _ (ih h)
  | fork _ _ _ _ body next ihb ihn =>
    rcases List.mem_cons.mp h with h | h
    · obtain ⟨rfl, rfl⟩ := Prod.mk.inj h
      exact hself ha
    · refine List.mem_cons_of_mem _ ?_
      rw [List.map_append, List.mem_append]
      exact (List.mem_append.mp h).imp ihb ihn
  | jump | ret | stuck =>
    obtain ⟨rfl, rfl⟩ := Prod.mk.inj (List.mem_singleton.mp h)
    exact hself ha

theorem exists_site {r : Region} (x : Context) {a : Address} (ha : a ∈ r.labels) :
    ∃ y n, (y, n) ∈ r.sites x ∧ n.head? = some a := by
  induction r generalizing x with
  | skip | missing => cases ha
  | loop _ _ _ _ next ih | go _ _ next ih | doWhile _ _ _ _ next ih =>
    rcases List.mem_cons.mp ha with rfl | ha
    · exact ⟨x, _, List.mem_cons_self, rfl⟩
    · obtain ⟨y, n, hs, hn⟩ := ih _ ha
      exact ⟨y, n, List.mem_cons_of_mem _ hs, hn⟩
  | fork _ _ _ _ body next ihb ihn =>
    rcases List.mem_cons.mp ha with rfl | ha
    · exact ⟨x, _, List.mem_cons_self, rfl⟩
    · rw [List.map_append] at ha
      rcases List.mem_append.mp ha with ha | ha
      · obtain ⟨y, n, hs, hn⟩ := ihb _ ha
        exact ⟨y, n, List.mem_cons_of_mem _ (List.mem_append_left _ hs), hn⟩
      · obtain ⟨y, n, hs, hn⟩ := ihn _ ha
        exact ⟨y, n, List.mem_cons_of_mem _ (List.mem_append_right _ hs), hn⟩
  | jump | ret | stuck =>
    obtain rfl := List.mem_singleton.mp ha
    exact ⟨x, _, List.mem_singleton_self _, rfl⟩

end Region

theorem Explores.site {bs : List BasicBlock} {backEdges : Finset (Address × Address)}
    {curr : Address} {x y : Context} {r n : Region} (h : Explores bs backEdges curr x.stop x.seen r)
    (hs : (y, n) ∈ r.sites x) : ∃ a, Explores bs backEdges a y.stop y.seen n := by
  induction r generalizing x curr with
  | skip | missing => cases hs
  | loop _ _ _ _ next ih =>
    rcases List.mem_cons.mp hs with hs | hs
    · obtain ⟨rfl, rfl⟩ := Prod.mk.inj hs
      exact ⟨curr, h⟩
    · cases h with
      | loop takes _ _ more => exact ih (takes.start ▸ more) hs
  | doWhile _ _ _ _ body ih =>
    rcases List.mem_cons.mp hs with hs | hs
    · obtain ⟨rfl, rfl⟩ := Prod.mk.inj hs
      exact ⟨curr, h⟩
    · cases h with
      | doWhile takes _ _ _ inner => exact ih (takes.start ▸ inner) hs
  | fork _ _ _ _ body next ihb ihn =>
    rcases List.mem_cons.mp hs with hs | hs
    · obtain ⟨rfl, rfl⟩ := Prod.mk.inj hs
      exact ⟨curr, h⟩
    · cases h with
      | fork takes _ _ _ inner more =>
        rcases List.mem_append.mp hs with hs | hs
        · exact ihb (takes.start ▸ inner) hs
        · exact ihn (takes.start ▸ more) hs
  | go _ _ next ih =>
    rcases List.mem_cons.mp hs with hs | hs
    · obtain ⟨rfl, rfl⟩ := Prod.mk.inj hs
      exact ⟨curr, h⟩
    · cases h with
      | go takes _ _ more => exact ih (takes.start ▸ more) hs
  | jump | ret | stuck =>
    obtain ⟨rfl, rfl⟩ := Prod.mk.inj (List.mem_singleton.mp hs)
    exact ⟨curr, h⟩

section Labels

theorem afterLabelIn_append (a : Address) (k l m : List HighLevelAst) :
    afterLabelIn a k (l ++ m) = (afterLabelIn a (m ++ k) l).or (afterLabelIn a k m) := by
  induction l with
  | nil => rfl
  | cons node l ih =>
    rw [List.cons_append, afterLabelIn, afterLabelIn, ih, List.append_assoc, Option.or_assoc]

theorem afterLabel_wrapNodes (a : Address) (k nodes : List HighLevelAst) :
    afterLabel a k (wrapNodes nodes) = afterLabelIn a k nodes := by
  match nodes with
  | [] => rfl
  | [node] => exact (Option.or_none).symm
  | _ :: _ :: _ => rfl

theorem afterLabelIn_headNodes (a : Address) (k : List HighLevelAst) (b : BasicBlock)
    (m : List HighLevelAst) : afterLabelIn a k (headNodes b ++ m) =
      if b.startAddress = a then some (codeNodes b ++ m ++ k) else afterLabelIn a k m := by
  have hcode : ∀ k, afterLabelIn a k (codeNodes b) = none := by
    intro k
    rw [codeNodes]
    split <;> rfl
  rw [headNodes_eq, List.cons_append, afterLabelIn, afterLabel]
  split
  · rfl
  · rw [Option.none_or, afterLabelIn_append, hcode, Option.none_or]

theorem afterLabelIn_nodes_eq_none {r : Region} {a : Address} (ha : a ∉ r.labels)
    (k : List HighLevelAst) : afterLabelIn a k r.nodes = none := by
  induction r generalizing k with
  | skip | missing => rfl
  | loop b _ _ _ next ih =>
    obtain ⟨hb, hn⟩ := not_or.mp (List.mem_cons.not.mp ha)
    rw [Region.nodes, afterLabelIn_headNodes, if_neg (Ne.symm hb), afterLabelIn, ih hn]
    rfl
  | doWhile b _ _ _ body ih =>
    obtain ⟨hb, hn⟩ := not_or.mp (List.mem_cons.not.mp ha)
    rw [Region.nodes, afterLabelIn_headNodes, if_neg (Ne.symm hb), afterLabelIn, afterLabel,
      afterLabel_wrapNodes, ih hn]
    rfl
  | fork b _ _ _ body next ihb ihn =>
    obtain ⟨hb, hn⟩ := not_or.mp (List.mem_cons.not.mp ha)
    rw [List.map_append, List.mem_append, not_or] at hn
    rw [Region.nodes, afterLabelIn_headNodes, if_neg (Ne.symm hb), afterLabelIn, afterLabel,
      afterLabel_wrapNodes, ihb hn.1, ihn hn.2]
    rfl
  | go b _ next ih =>
    obtain ⟨hb, hn⟩ := not_or.mp (List.mem_cons.not.mp ha)
    rw [Region.nodes, afterLabelIn_headNodes, if_neg (Ne.symm hb), ih hn]
  | jump b | ret b =>
    have hb : a ≠ b.startAddress := fun h => ha (List.mem_singleton.mpr h)
    rw [Region.nodes, afterLabelIn_headNodes, if_neg (Ne.symm hb)]
    rfl
  | stuck b =>
    have hb : a ≠ b.startAddress := fun h => ha (List.mem_singleton.mpr h)
    rw [Region.nodes, ← List.append_nil (headNodes b), afterLabelIn_headNodes,
      if_neg (Ne.symm hb)]
    rfl

theorem afterLabelIn_nodes_self {r : Region} {a : Address} (ha : r.head? = some a)
    (k : List HighLevelAst) : afterLabelIn a k r.nodes = some (r.nodes.tail ++ k) := by
  have hhead : ∀ (b : BasicBlock) (m : List HighLevelAst), b.startAddress = a →
      afterLabelIn a k (headNodes b ++ m) = some ((headNodes b ++ m).tail ++ k) := by
    rintro b m rfl
    rw [afterLabelIn_headNodes, if_pos rfl, headNodes_eq]
    rfl
  cases r with
  | skip | missing => cases ha
  | stuck b =>
    rw [Region.nodes, ← List.append_nil (headNodes b)]
    exact hhead b [] (Option.some.inj ha)
  | _ => exact hhead _ _ (Option.some.inj ha)

/-- The walk takes no block twice, so that a label is found where its block is. -/
theorem afterLabelIn_nodes {r n : Region} {x y : Context} (hnd : r.labels.Nodup)
    (h : (y, n) ∈ r.sites x) {a : Address} (ha : n.head? = some a) :
    afterLabelIn a x.rest r.nodes = some (n.nodes.tail ++ y.rest) := by
  have hself : ∀ {x : Context} {r : Region}, (y, n) = (x, r) →
      afterLabelIn a x.rest r.nodes = some (n.nodes.tail ++ y.rest) := by
    intro x r heq
    obtain ⟨rfl, rfl⟩ := Prod.mk.inj heq
    exact afterLabelIn_nodes_self ha _
  have hne : ∀ {b : BasicBlock} {l : List Address}, b.startAddress ∉ l → a ∈ l →
      b.startAddress ≠ a := fun hb ha heq => hb (heq ▸ ha)
  induction r generalizing x with
  | skip | missing => cases h
  | loop b _ _ _ next ih =>
    rcases List.mem_cons.mp h with h | h
    · exact hself h
    · obtain ⟨hb, hnd⟩ := List.nodup_cons.mp hnd
      rw [Region.nodes, afterLabelIn_headNodes,
        if_neg (hne hb (Region.mem_labels_of_mem_sites h ha)), afterLabelIn]
      have hnext := ih hnd h
      exact (Option.none_or).trans hnext
  | doWhile b _ _ _ body ih =>
    rcases List.mem_cons.mp h with h | h
    · exact hself h
    · obtain ⟨hb, hnd⟩ := List.nodup_cons.mp hnd
      rw [Region.nodes, afterLabelIn_headNodes,
        if_neg (hne hb (Region.mem_labels_of_mem_sites h ha)), afterLabelIn, afterLabel,
        afterLabel_wrapNodes]
      have hbody := ih hnd h
      simp only [List.cons_append, List.nil_append]
      rw [hbody]
      rfl
  | fork b _ _ _ body next ihb ihn =>
    rcases List.mem_cons.mp h with h | h
    · exact hself h
    · obtain ⟨hb, hnd⟩ := List.nodup_cons.mp hnd
      rw [List.map_append] at hb hnd
      obtain ⟨hndb, hndn, hdisj⟩ := List.nodup_append'.mp hnd
      rcases List.mem_append.mp h with h | h
      · have hmem := Region.mem_labels_of_mem_sites h ha
        rw [Region.nodes, afterLabelIn_headNodes,
          if_neg (hne hb (List.mem_append_left _ hmem)), afterLabelIn, afterLabel,
          afterLabel_wrapNodes]
        have hbody := ihb hndb h
        simp only at hbody
        rw [hbody]
        rfl
      · have hmem := Region.mem_labels_of_mem_sites h ha
        rw [Region.nodes, afterLabelIn_headNodes,
          if_neg (hne hb (List.mem_append_right _ hmem)), afterLabelIn, afterLabel,
          afterLabel_wrapNodes, afterLabelIn_nodes_eq_none fun hb => hdisj hb hmem]
        have hnext := ihn hndn h
        exact (Option.none_or).trans hnext
  | go b _ next ih =>
    rcases List.mem_cons.mp h with h | h
    · exact hself h
    · obtain ⟨hb, hnd⟩ := List.nodup_cons.mp hnd
      rw [Region.nodes, afterLabelIn_headNodes,
        if_neg (hne hb (Region.mem_labels_of_mem_sites h ha))]
      have hnext := ih hnd h
      exact hnext
  | jump | ret | stuck => exact hself (List.mem_singleton.mp h)

end Labels

theorem Region.self_mem_sites {r : Region} {a : Address} (ha : r.head? = some a) (x : Context) :
    (x, r) ∈ r.sites x := by
  cases r with
  | skip | missing => cases ha
  | _ => exact List.mem_cons_self

theorem Region.nodes_eq_nil {r : Region} (h : r.head? = none) : r.nodes = [] := by
  cases r with
  | skip | missing => rfl
  | _ => cases h

theorem Region.nodes_eq_cons {r : Region} {a : Address} (h : r.head? = some a) :
    r.nodes = .label a :: r.nodes.tail := by
  cases r with
  | skip | missing => cases h
  | _ =>
    obtain rfl := Option.some.inj h
    simp [Region.nodes, headNodes_eq]

theorem Explores.leadsTo {bs : List BasicBlock} {backEdges : Finset (Address × Address)}
    {curr : Address} {stop : Option Address} {seen : Finset Address} {r : Region}
    (h : Explores bs backEdges curr stop seen r) (hstart : curr ∈ starts bs) (hseen : curr ∉ seen)
    {fall : Option Address} (hstop : some curr = stop → r.visits = ∅ → fall = some curr) :
    r.leadsTo fall = some curr := by
  cases h with
  | skip h =>
    rcases h with h | h
    · exact hstop h rfl
    · exact absurd h hseen
  | missing _ _ hnone =>
    obtain ⟨b, hb, hba⟩ := mem_starts.mp hstart
    exact absurd hba (by simpa using List.find?_eq_none.mp hnone b hb)
  | loop takes | doWhile takes | fork takes | jump takes | go takes | ret takes | stuck takes =>
    exact congrArg some takes.start

section Leads

open Simulation

variable (ast : HighLevelAst) (outcomes : ℕ → Bool)

/-- Steps of the syntax tree that test nothing and perform nothing. -/
def Silent (u v : Code) : Prop := ∀ tests trace,
  ReachesPlus (astStep ast outcomes) ⟨u, tests, trace⟩ ⟨v, tests, trace⟩

/-- The text leads to a label, if it is there, or to the end. -/
def Leads (nodes : List HighLevelAst) : Option Address → Prop
  | none => Silent ast outcomes (.run nodes) .finished
  | some a => ∀ k, afterLabel a [] ast = some k → Silent ast outcomes (.run nodes) (.run k)

variable {ast outcomes}

theorem leads_nil : Leads ast outcomes [] none := fun _ _ => .single rfl

theorem leads_goto (a : Address) (k : List HighLevelAst) :
    Leads ast outcomes (.goto a :: k) (some a) := by
  intro k' hk' tests trace
  refine .single ?_
  rw [astStep_goto, hk']
  rfl

theorem Leads.nodes {r : Region} {k : List HighLevelAst} {fall : Option Address}
    (hlabel : ∀ a, r.head? = some a → afterLabel a [] ast = some (r.nodes.tail ++ k))
    (h : Leads ast outcomes k fall) : Leads ast outcomes (r.nodes ++ k) (r.leadsTo fall) := by
  cases hhead : r.head? with
  | none =>
    rw [Region.leadsTo, hhead, Region.nodes_eq_nil hhead]
    exact h
  | some a =>
    rw [Region.leadsTo, hhead, Region.nodes_eq_cons hhead]
    intro k' hk' tests trace
    obtain rfl := Option.some.inj ((hlabel a hhead).symm.trans hk')
    exact .single rfl

variable (ast outcomes)

/-- A region in its place in the syntax tree of a function. -/
structure Placed (g : Function) (backEdges : Finset (Address × Address)) (x : Context)
    (curr : Address) (r : Region) : Prop where
  explores : Explores g.blocks backEdges curr x.stop x.seen r
  entered : g.entry ∈ insert curr x.seen
  stops : ∀ s, x.stop = some s → s ∈ starts g.blocks → s ∉ x.seen ∪ r.visits → x.fall = some s
  leads : Leads ast outcomes x.rest x.fall
  labels : ∀ y n, (y, n) ∈ r.sites x → ∀ a, n.head? = some a →
    afterLabel a [] ast = some (n.nodes.tail ++ y.rest)

variable {ast outcomes} {g : Function} {backEdges : Finset (Address × Address)}

namespace Placed

variable {x : Context} {curr : Address} {r : Region}

theorem leads_nodes (h : Placed ast outcomes g backEdges x curr r) :
    Leads ast outcomes (r.nodes ++ x.rest) (r.leadsTo x.fall) :=
  h.leads.nodes fun _ ha => h.labels x r (Region.self_mem_sites ha x) _ ha

/-- Where the walk comes to a block that it has not seen, the text leads there: the walk
takes the block, or stops at it and the text behind the region leads to it. -/
theorem leadsTo (h : Placed ast outcomes g backEdges x curr r) (hstart : curr ∈ starts g.blocks)
    (hseen : curr ∉ x.seen) : r.leadsTo x.fall = some curr := by
  refine h.explores.leadsTo hstart hseen fun hstop hnone => ?_
  refine h.stops curr hstop.symm hstart ?_
  rwa [hnone, Finset.union_empty]

theorem tail (h : Placed ast outcomes g backEdges x curr r) {next : Region} {a : Address}
    {seen : Finset Address} (more : Explores g.blocks backEdges a x.stop seen next)
    (hseen : insert curr x.seen ⊆ seen) (hvisits : seen ∪ next.visits = x.seen ∪ r.visits)
    (hsites : next.sites { x with seen := seen } ⊆ r.sites x) :
    Placed ast outcomes g backEdges { x with seen := seen } a next where
  explores := more
  entered := Finset.mem_insert_of_mem (hseen h.entered)
  stops s hstop hstart hnot := h.stops s hstop hstart (hvisits ▸ hnot)
  leads := h.leads
  labels y n hyn := h.labels y n (hsites hyn)

theorem body (h : Placed ast outcomes g backEdges x curr r) {body : Region} {a s : Address}
    {seen : Finset Address} {fall : Option Address} {rest : List HighLevelAst}
    (inner : Explores g.blocks backEdges a (some s) seen body)
    (hseen : insert curr x.seen ⊆ seen)
    (hfall : s ∈ starts g.blocks → s ∉ seen ∪ body.visits → fall = some s)
    (hleads : Leads ast outcomes rest fall)
    (hsites : body.sites ⟨some s, seen, fall, rest⟩ ⊆ r.sites x) :
    Placed ast outcomes g backEdges ⟨some s, seen, fall, rest⟩ a body where
  explores := inner
  entered := Finset.mem_insert_of_mem (hseen h.entered)
  stops s' hstop hstart hnot := by
    obtain rfl := Option.some.inj hstop
    exact hfall hstart hnot
  leads := hleads
  labels y n hyn := h.labels y n (hsites hyn)

variable {b : BasicBlock} {cond : Varnode} {t f target : Address} {inner next : Region}

theorem loop_next (h : Placed ast outcomes g backEdges x curr (.loop b cond t f next)) :
    Placed ast outcomes g backEdges { x with seen := insert b.startAddress x.seen } f next := by
  cases h.explores with
  | loop takes _ _ more =>
    obtain rfl := takes.start
    refine h.tail more (Finset.Subset.refl _) ?_ (List.subset_cons_self _ _)
    rw [Region.visits, Finset.insert_union, Finset.union_insert]

theorem go_next (h : Placed ast outcomes g backEdges x curr (.go b target next)) :
    Placed ast outcomes g backEdges { x with seen := insert b.startAddress x.seen } target
      next := by
  cases h.explores with
  | go takes _ _ more =>
    obtain rfl := takes.start
    refine h.tail more (Finset.Subset.refl _) ?_ (List.subset_cons_self _ _)
    rw [Region.visits, Finset.insert_union, Finset.union_insert]

theorem fork_next (h : Placed ast outcomes g backEdges x curr (.fork b cond t f inner next)) :
    Placed ast outcomes g backEdges
      { x with seen := insert b.startAddress x.seen ∪ inner.visits } f next := by
  cases h.explores with
  | fork takes _ _ _ _ more =>
    obtain rfl := takes.start
    refine h.tail more Finset.subset_union_left ?_ ?_
    · rw [Region.visits, Finset.insert_union, Finset.union_insert, Finset.insert_union,
        Finset.union_assoc]
    · exact List.Subset.trans (List.subset_append_right _ _) (List.subset_cons_self _ _)

theorem doWhile_body (h : Placed ast outcomes g backEdges x curr (.doWhile b cond t f inner)) :
    Placed ast outcomes g backEdges
      ⟨some f, insert b.startAddress x.seen, some f, .goto f :: x.rest⟩ t inner := by
  cases h.explores with
  | doWhile takes _ _ _ body =>
    obtain rfl := takes.start
    exact h.body body (Finset.Subset.refl _) (fun _ _ => rfl) (leads_goto f _)
      (List.subset_cons_self _ _)

theorem fork_body (h : Placed ast outcomes g backEdges x curr (.fork b cond t f inner next)) :
    Placed ast outcomes g backEdges ⟨some f, insert b.startAddress x.seen,
      next.leadsTo x.fall, next.nodes ++ x.rest⟩ t inner := by
  have hnext := h.fork_next
  cases h.explores with
  | fork takes _ _ _ body _ =>
    obtain rfl := takes.start
    exact h.body body (Finset.Subset.refl _) hnext.leadsTo hnext.leads_nodes
      (List.Subset.trans (List.subset_append_left _ _) (List.subset_cons_self _ _))

/-- The regions from the blocks of a region on are in their places, too. -/
theorem site (h : Placed ast outcomes g backEdges x curr r) {y : Context} {n : Region}
    (hs : (y, n) ∈ r.sites x) : ∃ a, n.head? = some a ∧ Placed ast outcomes g backEdges y a n := by
  have hself : ∀ {x : Context} {curr : Address} {r : Region},
      Placed ast outcomes g backEdges x curr r → r.taken ≠ [] → (y, n) = (x, r) →
      ∃ a, n.head? = some a ∧ Placed ast outcomes g backEdges y a n := by
    rintro x curr r hr hne heq
    obtain ⟨rfl, rfl⟩ := Prod.mk.inj heq
    refine ⟨curr, ?_, hr⟩
    cases hr.explores with
    | skip | missing => exact absurd rfl hne
    | loop takes | doWhile takes | fork takes | jump takes | go takes | ret takes | stuck takes =>
      exact congrArg some takes.start
  induction r generalizing x curr with
  | skip | missing => cases hs
  | loop b cond t f next ih =>
    rcases List.mem_cons.mp hs with hs | hs
    · exact hself h (List.cons_ne_nil _ _) hs
    · exact ih h.loop_next hs
  | doWhile b cond t f inner ih =>
    rcases List.mem_cons.mp hs with hs | hs
    · exact hself h (List.cons_ne_nil _ _) hs
    · exact ih h.doWhile_body hs
  | fork b cond t f inner next ihb ihn =>
    rcases List.mem_cons.mp hs with hs | hs
    · exact hself h (List.cons_ne_nil _ _) hs
    · rcases List.mem_append.mp hs with hs | hs
      · exact ihb h.fork_body hs
      · exact ihn h.fork_next hs
  | go b target next ih =>
    rcases List.mem_cons.mp hs with hs | hs
    · exact hself h (List.cons_ne_nil _ _) hs
    · exact ih h.go_next hs
  | jump | ret | stuck => exact hself h (List.cons_ne_nil _ _) (List.mem_singleton.mp hs)

end Placed

end Leads

end Decompiler.Structurer
