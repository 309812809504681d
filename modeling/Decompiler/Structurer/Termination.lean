import Decompiler.Structurer.Search
import Decompiler.Structurer.Text

/-! # The walk ends

The region walker with its loop and its recursion made explicit: a stack of the calls
under way over the visited set that they share. On any graph the walk settles, and it
takes every address at most once.
-/

namespace Decompiler.Structurer

open Cfg Fuel Visiting

/-- The loop of a call of `structure_region`: its current address and its stop address. -/
structure Frame where
  curr : Address
  stop : Option Address
  deriving DecidableEq

/-- The loops that are under way, the innermost first, and the visited set. -/
structure WalkState where
  frames : List Frame
  visited : Finset Address

/-- How the walk goes on after a block: through the nested call, and then with the loop itself.
A loop that breaks off leaves no frame. -/
def framesAfter (backEdges : Finset (Address × Address)) (visited : Finset Address)
    (curr : Address) (stop : Option Address) (block : BasicBlock) : List Frame :=
  match exitOf block with
  | .cond _ trueTarget falseTarget =>
    if (curr, trueTarget) ∈ backEdges then [⟨falseTarget, stop⟩]
    else if (curr, falseTarget) ∈ backEdges then [⟨trueTarget, some falseTarget⟩]
    else [⟨trueTarget, some falseTarget⟩, ⟨falseTarget, stop⟩]
  | .jump target =>
    if (curr, target) ∈ backEdges ∨ target ∈ visited then [] else [⟨target, stop⟩]
  | .next next => if next ∈ visited then [] else [⟨next, stop⟩]
  | .ret | .none => []

/-- A step of the walk: the condition of the loop fails, or the loop takes its current address. -/
inductive WalkStep (f : Function) (backEdges : Finset (Address × Address)) :
    WalkState → Option Address → WalkState → Prop
  | leave {curr : Address} {stop : Option Address} {rest : List Frame} {visited : Finset Address}
    (done : some curr = stop ∨ curr ∈ visited) :
    WalkStep f backEdges ⟨⟨curr, stop⟩ :: rest, visited⟩ none ⟨rest, visited⟩
  | missing {curr : Address} {stop : Option Address} {rest : List Frame}
    {visited : Finset Address} (new : ¬(some curr = stop ∨ curr ∈ visited))
    (block : f.blockAt curr = .ok none) :
    WalkStep f backEdges ⟨⟨curr, stop⟩ :: rest, visited⟩ (some curr) ⟨rest, insert curr visited⟩
  | take {curr : Address} {stop : Option Address} {rest : List Frame} {visited : Finset Address}
    {b : BasicBlock} (new : ¬(some curr = stop ∨ curr ∈ visited))
    (block : f.blockAt curr = .ok (some b)) :
    WalkStep f backEdges ⟨⟨curr, stop⟩ :: rest, visited⟩ (some curr)
      ⟨framesAfter backEdges (insert curr visited) curr stop b ++ rest, insert curr visited⟩

def walkRaises (f : Function) (e : Fault) (s : WalkState) : Prop :=
  ∃ curr stop rest, s.frames = ⟨curr, stop⟩ :: rest ∧ ¬(some curr = stop ∨ curr ∈ s.visited) ∧
    f.blockAt curr = .error e

variable {f : Function} {backEdges : Finset (Address × Address)} {curr : Address}
  {stop : Option Address} {visited : Finset Address} {b : BasicBlock}

theorem length_framesAfter_le (backEdges : Finset (Address × Address))
    (visited : Finset Address) (curr : Address) (stop : Option Address) (b : BasicBlock) :
    (framesAfter backEdges visited curr stop b).length ≤ 2 := by
  unfold framesAfter
  cases exitOf b with
  | cond cond t f =>
    dsimp only
    split
    · simp
    · split <;> simp
  | jump | next =>
    dsimp only
    split <;> simp
  | ret | none => simp

theorem walkStep_takesOnce (f : Function) (backEdges : Finset (Address × Address)) :
    TakesOnce (WalkStep f backEdges) WalkState.visited (fun s => s.frames.length)
      (blockAddresses f) fun _ => 2 := by
  constructor
  case skip =>
    intro s t hstep
    cases hstep with
    | leave => exact ⟨rfl, Nat.lt_succ_self _⟩
  case take =>
    intro s a t hstep
    cases hstep with
    | missing hnew => exact ⟨(not_or.mp hnew).2, rfl, Or.inl (Nat.lt_succ_self _)⟩
    | @take _ stop rest visited b hnew hblock =>
      refine ⟨(not_or.mp hnew).2, rfl, Or.inr ⟨?_, ?_⟩⟩
      · rw [mem_blockAddresses, found, hblock]
        exact ⟨b, rfl⟩
      · have hle := length_framesAfter_le backEdges (insert a visited) a stop b
        simp only [List.length_append, List.length_cons]
        omega

def walkFrames (f : Function) (backEdges : Finset (Address × Address)) (fuel : ℕ) :
    List Frame → Finset Address → Except Fault (List (List HighLevelAst) × Finset Address)
  | [], visited => .ok ([], visited)
  | frame :: frames, visited => do
    let (nodes, visited) ← regionLoop f backEdges fuel frame.curr frame.stop visited
    let (parts, visited) ← walkFrames f backEdges fuel frames visited
    return (nodes :: parts, visited)

def labelsOf (nodes : List HighLevelAst) : List Address := (nodeLines nodes).filterMap Line.label?

theorem labelsOf_append (l m : List HighLevelAst) :
    labelsOf (l ++ m) = labelsOf l ++ labelsOf m := by
  rw [labelsOf, nodeLines_append, List.filterMap_append, labelsOf, labelsOf]

theorem labelsOf_blockNodes (addr : Address) (ops : List Instruction) :
    labelsOf (blockNodes addr ops) = [addr] := by
  unfold blockNodes
  split <;> rfl

theorem labelsOf_ifElse (cond : Varnode) (body rest : List HighLevelAst) :
    labelsOf (.ifElse cond (wrapNodes body) none :: rest) = labelsOf body ++ labelsOf rest := by
  simp only [labelsOf, nodeLines, HighLevelAst.lines, elseLines, lines_wrapNodes,
    List.filterMap_append, List.filterMap_cons, List.filterMap_nil, Line.label?,
    List.append_nil]

theorem walkFrames_cons (fuel : ℕ) (frame : Frame) (frames : List Frame) (v : Finset Address) :
    walkFrames f backEdges fuel (frame :: frames) v =
      regionLoop f backEdges fuel frame.curr frame.stop v >>= fun p =>
        walkFrames f backEdges fuel frames p.2 >>= fun q => .ok (p.1 :: q.1, q.2) := rfl

/-- A computation that walks the frames and puts their nodes together, under the label of an
address. -/
def Assembles (f : Function) (backEdges : Finset (Address × Address)) (curr : Address)
    (frames : List Frame) (v : Finset Address)
    (x : ℕ → Except Fault (List HighLevelAst × Finset Address)) : Prop :=
  ∃ put : List (List HighLevelAst) → List HighLevelAst,
    (∀ parts, labelsOf (put parts) = curr :: labelsOf parts.flatten) ∧
      ∀ fuel, x fuel = walkFrames f backEdges fuel frames v >>= fun p => .ok (put p.1, p.2)

section Assembles

variable {a c : Address} {s s' : Option Address} {v : Finset Address}

theorem assembles_nil {nodes : List HighLevelAst} (h : labelsOf nodes = [curr]) :
    Assembles f backEdges curr [] v fun _ => .ok (nodes, v) := by
  refine ⟨fun parts => nodes ++ parts.flatten, fun parts => ?_, fun fuel => ?_⟩
  · rw [labelsOf_append, h, List.singleton_append]
  · simp [walkFrames]

theorem assembles_one (put : List HighLevelAst → List HighLevelAst)
    (hput : ∀ nodes, labelsOf (put nodes) = curr :: labelsOf nodes) :
    Assembles f backEdges curr [⟨a, s⟩] v fun fuel =>
      regionLoop f backEdges fuel a s v >>= fun p => .ok (put p.1, p.2) := by
  refine ⟨fun parts => put parts.flatten, fun parts => hput _, fun fuel => ?_⟩
  simp only [walkFrames_cons]
  cases regionLoop f backEdges fuel a s v with
  | error e => rfl
  | ok p => simp [walkFrames]

theorem assembles_two (put : List HighLevelAst → List HighLevelAst → List HighLevelAst)
    (hput : ∀ nodes nodes',
      labelsOf (put nodes nodes') = curr :: (labelsOf nodes ++ labelsOf nodes')) :
    Assembles f backEdges curr [⟨a, s⟩, ⟨c, s'⟩] v fun fuel =>
      regionLoop f backEdges fuel a s v >>= fun p =>
        regionLoop f backEdges fuel c s' p.2 >>= fun q => .ok (put p.1 q.1, q.2) := by
  refine ⟨fun parts => put (parts.headD []) parts.tail.flatten, fun parts => ?_, fun fuel => ?_⟩
  · rw [hput]
    cases parts with
    | nil => rfl
    | cons part parts => exact congrArg _ (labelsOf_append part parts.flatten).symm
  · simp only [walkFrames_cons]
    cases regionLoop f backEdges fuel a s v with
    | error e => rfl
    | ok p =>
      simp only [Fallible.ok_bind]
      cases regionLoop f backEdges fuel c s' p.2 with
      | error e => rfl
      | ok q => simp [walkFrames]

theorem assembles_regionLoop (hnew : ¬(some curr = stop ∨ curr ∈ visited))
    (hat : f.blockAt curr = .ok (some b)) :
    Assembles f backEdges curr (framesAfter backEdges (insert curr visited) curr stop b)
      (insert curr visited) fun fuel => regionLoop f backEdges (fuel + 1) curr stop visited := by
  set head := blockNodes curr (Scan.ofBlock b).ops with hhead
  have hlabel : ∀ nodes, labelsOf (head ++ nodes) = curr :: labelsOf nodes := by
    intro nodes
    rw [labelsOf_append, hhead, labelsOf_blockNodes, List.singleton_append]
  simp only [framesAfter, regionLoop_of_block _ hnew hat, ← hhead]
  cases exitOf b with
  | cond cond t e =>
    dsimp only
    split
    case isTrue => exact assembles_one _ fun nodes => hlabel (.whileDo cond (.goto t) :: nodes)
    case isFalse =>
      split
      case isTrue =>
        have hbody : ∀ nodes, labelsOf (head ++
            [.ifElse cond (wrapNodes nodes) none, .goto e]) = curr :: labelsOf nodes := by
          intro nodes
          rw [hlabel, labelsOf_ifElse]
          exact congrArg _ (List.append_nil _)
        exact assembles_one _ hbody
      case isFalse =>
        have hbody : ∀ nodes nodes', labelsOf (head ++
            .ifElse cond (wrapNodes nodes) none :: nodes') =
              curr :: (labelsOf nodes ++ labelsOf nodes') := by
          intro nodes nodes'
          rw [hlabel, labelsOf_ifElse]
        exact assembles_two _ hbody
  | jump target | next target =>
    dsimp only
    split
    case isTrue => exact assembles_nil (hlabel [.goto target])
    case isFalse => exact assembles_one _ hlabel
  | ret => exact assembles_nil (hlabel [.ret])
  | none => exact assembles_nil (labelsOf_blockNodes curr _)

end Assembles

/-- Fuel for the blocks that have not been visited is enough, and more fuel changes nothing. -/
theorem regionLoop_settles (f : Function) (backEdges : Finset (Address × Address))
    (curr : Address) (stop : Option Address) (visited : Finset Address) :
    Settles Fault.outOfFuel ((blockAddresses f \ visited).card + 1)
      (fun fuel => regionLoop f backEdges fuel curr stop visited) fun r => visited ⊆ r.2 := by
  induction hn : (blockAddresses f \ visited).card using Nat.strong_induction_on
    generalizing curr stop visited with
  | _ n ih =>
    have hsub : visited ⊆ insert curr visited := Finset.subset_insert curr visited
    by_cases hdone : some curr = stop ∨ curr ∈ visited
    · exact .of_succ (fun fuel => regionLoop_of_done fuel hdone) (.ok (Finset.Subset.refl _))
    rcases blockAt_found f curr with hfail | hat
    · exact .of_succ (fun fuel => regionLoop_of_error fuel hdone hfail) (.error (by decide))
    cases hb : found f curr with
    | none =>
      rw [hb] at hat
      exact .of_succ (fun fuel => regionLoop_of_missing fuel hdone hat) (.ok hsub)
    | some b =>
      have hmem : curr ∈ blockAddresses f := mem_blockAddresses.mpr ⟨b, hb⟩
      rw [hb] at hat
      obtain ⟨put, -, hput⟩ := @assembles_regionLoop f backEdges _ _ _ _ hdone hat
      refine .of_succ hput ?_
      -- what a nested call has visited is still visited when the loop goes on
      have hframes : ∀ frames v, insert curr visited ⊆ v → Settles Fault.outOfFuel n
          (fun fuel => walkFrames f backEdges fuel frames v)
          fun r => insert curr visited ⊆ r.2 := by
        intro frames
        induction frames with
        | nil => exact fun v hv => .ok hv
        | cons frame frames ihf =>
          intro v hv
          have hlt : (blockAddresses f \ v).card < n := by
            rw [← hn]
            exact DepthFirst.card_sdiff_lt hmem (not_or.mp hdone).2 hv
          have hcall := (ih _ hlt frame.curr frame.stop v rfl).mono hlt
          simp only [walkFrames_cons]
          refine hcall.bind fun p hp => ?_
          exact (ihf p.2 (hv.trans hp)).bind fun q hq => .ok hq
      exact (hframes _ _ (Finset.Subset.refl _)).bind fun p hp => .ok (hsub.trans hp)

/-- The walk is the loop with its nested calls: it comes to what the loop leaves behind, or to the
lookup that panics. The text has one label for each block that is taken, in this order. -/
theorem regionLoop_carriedOut (f : Function) (backEdges : Finset (Address × Address)) (fuel : ℕ)
    (curr : Address) (stop : Option Address) (visited : Finset Address) (rest : List Frame) :
    CarriedOut (WalkStep f backEdges) Fault.outOfFuel (walkRaises f)
      ⟨⟨curr, stop⟩ :: rest, visited⟩ (regionLoop f backEdges fuel curr stop visited)
      fun r items s => s = ⟨rest, r.2⟩ ∧
        labelsOf r.1 = items.reduceOption.filter (· ∈ blockAddresses f) := by
  induction fuel generalizing curr stop visited rest with
  | zero => exact .limit_error
  | succ fuel ih =>
    by_cases hdone : some curr = stop ∨ curr ∈ visited
    · rw [regionLoop_of_done fuel hdone]
      exact .of_step (.leave hdone) (.ok ⟨rfl, rfl⟩)
    rcases blockAt_found f curr with hfail | hat
    · rw [regionLoop_of_error fuel hdone hfail]
      exact .raised ⟨curr, stop, rest, rfl, hdone, hfail⟩
    cases hb : found f curr with
    | none =>
      have hnot : curr ∉ blockAddresses f := by
        rw [mem_blockAddresses, hb]
        rintro ⟨b, h⟩
        cases h
      rw [hb] at hat
      rw [regionLoop_of_missing fuel hdone hat]
      refine .of_step (.missing hdone hat) (.ok ⟨rfl, ?_⟩)
      rw [List.reduceOption_cons_of_some, List.filter_cons_of_neg (by simpa using hnot)]
      rfl
    | some b =>
      have hmem : curr ∈ blockAddresses f := mem_blockAddresses.mpr ⟨b, hb⟩
      rw [hb] at hat
      obtain ⟨put, hlabels, hput⟩ := @assembles_regionLoop f backEdges _ _ _ _ hdone hat
      dsimp only at hput
      rw [hput fuel]
      refine .of_step (.take hdone hat) ?_
      have hframes : ∀ frames v, CarriedOut (WalkStep f backEdges) Fault.outOfFuel (walkRaises f)
          ⟨frames ++ rest, v⟩ (walkFrames f backEdges fuel frames v)
          fun r items s => s = ⟨rest, r.2⟩ ∧
            labelsOf r.1.flatten = items.reduceOption.filter (· ∈ blockAddresses f) := by
        intro frames
        induction frames with
        | nil => exact fun v => .ok ⟨rfl, rfl⟩
        | cons frame frames ihf =>
          intro v
          rw [walkFrames_cons]
          refine (ih frame.curr frame.stop v (frames ++ rest)).bind ?_
          rintro p items s ⟨rfl, hp⟩
          refine (ihf p.2).bind ?_
          rintro q items' s ⟨rfl, hq⟩
          refine .ok ⟨rfl, ?_⟩
          rw [List.flatten_cons, labelsOf_append, hp, hq, List.append_nil, List.reduceOption_append,
            List.filter_append]
      refine (hframes _ _).bind ?_
      rintro p items s ⟨rfl, hp⟩
      refine .ok ⟨rfl, ?_⟩
      rw [hlabels, hp, List.append_nil, List.reduceOption_cons_of_some,
        List.filter_cons_of_pos (by simpa using hmem)]

theorem structureRegion_eq (fuel : ℕ) (start : Address) :
    structureRegion f backEdges fuel start stop visited =
      regionLoop f backEdges fuel start stop visited >>= fun p => .ok (wrapNodes p.1, p.2) := by
  simp only [structureRegion, wrap_eq_ok]
  rfl

theorem structureRegion_settles (f : Function) (backEdges : Finset (Address × Address))
    (start : Address) (stop : Option Address) (visited : Finset Address) :
    Settles Fault.outOfFuel ((blockAddresses f \ visited).card + 1)
      (fun fuel => structureRegion f backEdges fuel start stop visited) fun r => visited ⊆ r.2 := by
  simp only [structureRegion_eq]
  exact (regionLoop_settles f backEdges start stop visited).bind fun r hr => .ok hr

theorem structureRegion_carriedOut (f : Function) (backEdges : Finset (Address × Address))
    (fuel : ℕ) (start : Address) (stop : Option Address) (visited : Finset Address) :
    CarriedOut (WalkStep f backEdges) Fault.outOfFuel (walkRaises f) ⟨[⟨start, stop⟩], visited⟩
      (structureRegion f backEdges fuel start stop visited) fun r items s => s = ⟨[], r.2⟩ ∧
        r.1.lines.filterMap Line.label? = items.reduceOption.filter (· ∈ blockAddresses f) := by
  rw [structureRegion_eq]
  refine (regionLoop_carriedOut f backEdges fuel start stop visited []).bind ?_
  rintro r items s ⟨rfl, hr⟩
  refine .ok ⟨rfl, ?_⟩
  rw [lines_wrapNodes, List.append_nil]
  exact hr

/-- On any function the search for back edges and the walk end. A call has one result for all
fuels that cover the blocks not visited before it. Together with all calls nested in it, it takes
a bounded number of steps, and no address twice. -/
theorem structurer_terminates (f : Function) :
    (∀ addr st,
      Settles Fault.outOfFuel ((blockAddresses f \ st.visited).card + 1)
        (fun fuel => dfsBackEdges f fuel addr st) (fun st' => st.visited ⊆ st'.visited) ∧
      (∀ fuel, CarriedOut (SearchStep f) Fault.outOfFuel (searchRaises f) ⟨[.call addr], st⟩
        (dfsBackEdges f fuel addr st) fun st' _ s => s = ⟨[], st'⟩) ∧
      RunsOut (SearchStep f) ⟨[.call addr], st⟩
        (2 + ∑ a ∈ blockAddresses f \ st.visited, 3 * (nextOf f a).length) st.visited) ∧
    ∀ backEdges start stop visited,
      Settles Fault.outOfFuel ((blockAddresses f \ visited).card + 1)
        (fun fuel => structureRegion f backEdges fuel start stop visited)
        (fun r => visited ⊆ r.2) ∧
      (∀ fuel, CarriedOut (WalkStep f backEdges) Fault.outOfFuel (walkRaises f)
        ⟨[⟨start, stop⟩], visited⟩ (structureRegion f backEdges fuel start stop visited)
        fun r items s => s = ⟨[], r.2⟩ ∧
          r.1.lines.filterMap Line.label? = items.reduceOption.filter (· ∈ blockAddresses f)) ∧
      RunsOut (WalkStep f backEdges) ⟨[⟨start, stop⟩], visited⟩
        (1 + 2 * (blockAddresses f \ visited).card) visited := by
  constructor
  · intro addr st
    refine ⟨dfsBackEdges_settles f addr st, fun fuel => ?_, ?_⟩
    · exact dfsBackEdges_carriedOut f fuel addr st []
    · exact (searchStep_takesOnce f).runsOut ⟨[.call addr], st⟩
  · intro backEdges start stop visited
    refine ⟨structureRegion_settles f backEdges start stop visited, fun fuel => ?_, ?_⟩
    · exact structureRegion_carriedOut f backEdges fuel start stop visited
    · have hruns := (walkStep_takesOnce f backEdges).runsOut ⟨[⟨start, stop⟩], visited⟩
      rwa [Finset.sum_const_nat fun _ _ => rfl, Nat.mul_comm] at hruns

section Whole

/-- Different addresses have different positions in the index, as in every index that is built
from a block list, also when the blocks have been changed since. -/
def SeparatesPositions (f : Function) : Prop :=
  ∀ a c i, f.blockIndex.lookup a = some i → f.blockIndex.lookup c = some i → a = c

theorem separatesPositions_of_rebuildIndex {g : Function}
    (h : f.blockIndex = g.rebuildIndex.blockIndex) : SeparatesPositions f := by
  intro a c i ha hc
  rw [h] at ha hc
  have hstart := startAt_of_lookup ha
  rw [startAt_of_lookup hc] at hstart
  exact (Option.some.inj hstart).symm

theorem card_blockAddresses_le (hf : SeparatesPositions f) :
    (blockAddresses f).card ≤ f.blocks.length := by
  by_cases hkeys : f.blockIndex.keys = ∅
  · have hsub : blockAddresses f ⊆ (f.blocks.map BasicBlock.startAddress).toFinset := by
      intro a ha
      obtain ⟨b, hb⟩ := mem_blockAddresses.mp ha
      rw [List.mem_toFinset]
      rcases blockAt_cases (blockAt_of_found hb) with ⟨-, hmem, rfl⟩ | ⟨i, hi, -⟩
      · exact List.mem_map_of_mem hmem
      · have hkey : a ∈ f.blockIndex.keys :=
          Finmap.mem_keys.mpr (Finmap.mem_of_lookup_eq_some hi)
        rw [hkeys] at hkey
        exact absurd hkey (Finset.notMem_empty a)
    have hcard := (f.blocks.map BasicBlock.startAddress).toFinset_card_le
    rw [List.length_map] at hcard
    exact (Finset.card_le_card hsub).trans hcard
  · have hposition : ∀ a ∈ blockAddresses f, ∃ i, f.blockIndex.lookup a = some i ∧
        i < f.blocks.length := by
      intro a ha
      obtain ⟨b, hb⟩ := mem_blockAddresses.mp ha
      rcases blockAt_cases (blockAt_of_found hb) with ⟨hempty, -, -⟩ | ⟨i, hi, hb⟩
      · exact absurd hempty hkeys
      · exact ⟨i, hi, (List.getElem?_eq_some_iff.mp hb).1⟩
    have hle : (blockAddresses f).card ≤ (Finset.range f.blocks.length).card := by
      apply Finset.card_le_card_of_injOn fun a => (f.blockIndex.lookup a).getD 0
      · intro a ha
        obtain ⟨i, hi, hlt⟩ := hposition a ha
        simpa [hi] using hlt
      · intro a ha c hc heq
        obtain ⟨i, hi, -⟩ := hposition a ha
        obtain ⟨j, hj, -⟩ := hposition c hc
        simp only [hi, hj, Option.getD_some] at heq
        exact hf a c i hi (heq ▸ hj)
    rwa [Finset.card_range] at hle

/-- With an index that was built from some block list the structurer returns, or it panics at an
index that points outside of the block list. -/
theorem doStructure_ends {g : Function} (h : f.blockIndex = g.rebuildIndex.blockIndex) :
    LookupFails f (doStructure f) ∨ ∃ ast, doStructure f = .ok ast := by
  have hcard := card_blockAddresses_le (separatesPositions_of_rebuildIndex h)
  unfold doStructure
  split
  case isTrue => exact Or.inr ⟨_, rfl⟩
  case isFalse =>
    rcases exists_search f with hfail | ⟨st, hst, -⟩
    · exact Or.inl (hfail.bind _)
    rw [hst, Fallible.ok_bind]
    have hregion := structureRegion_settles f st.back f.entry none ∅
    rw [Finset.sdiff_empty] at hregion
    have hfuel := hregion.ne_limit (show (blockAddresses f).card + 1 ≤ f.blocks.length + 2 by omega)
    have hwalk := structureRegion_carriedOut f st.back (f.blocks.length + 2) f.entry none ∅
    cases hr : structureRegion f st.back (f.blocks.length + 2) f.entry none ∅ with
    | ok r => exact Or.inr ⟨r.1, rfl⟩
    | error e =>
      rw [hr] at hfuel hwalk
      rcases hwalk with rfl | ⟨_, _, _, ⟨a, _, _, _, _, hat⟩⟩
      · exact absurd rfl hfuel
      · obtain rfl := blockAt_eq_error hat
        exact Or.inl ⟨a, hat, rfl⟩

end Whole

end Decompiler.Structurer
