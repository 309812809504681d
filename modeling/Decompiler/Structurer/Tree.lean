import Decompiler.Structurer.BackEdges

/-! # Region trees

What the region walker does at each block that it takes, as a tree. The walker is
the exploration of the graph into such a tree, followed by its printing, and the
exploration needs no more fuel than there are blocks left to take.
-/

namespace Decompiler.Structurer

open Cfg

/-- What the walker distinguishes at the end of a block. -/
inductive Exit where
  | cond (condition : Varnode) (trueTarget falseTarget : Address)
  | jump (target : Address)
  | ret
  | next (address : Address)
  | none
  deriving DecidableEq

def exitOf (block : BasicBlock) : Exit :=
  let scan := Scan.ofBlock block
  match scan.termCond with
  | some cond =>
    let trueTarget := scan.termTrue.getD 0
    .cond cond trueTarget ((block.successors.find? (· ≠ trueTarget)).getD 0)
  | Option.none =>
    match scan.unconditional with
    | some target => .jump target
    | Option.none =>
      if scan.isReturn then .ret
      else
        match block.successors.head? with
        | some next => .next next
        | Option.none => .none

inductive Region where
  /-- the walk has come to its stop address or to an address it has seen -/
  | skip
  /-- no block starts at the address -/
  | missing (address : Address)
  /-- the true target of the condition is the head of a loop -/
  | loop (block : BasicBlock) (cond : Varnode) (t f : Address) (next : Region)
  /-- the false target of the condition is the head of a loop -/
  | doWhile (block : BasicBlock) (cond : Varnode) (t f : Address) (body : Region)
  | fork (block : BasicBlock) (cond : Varnode) (t f : Address) (body next : Region)
  /-- the block ends in a `goto` -/
  | jump (block : BasicBlock) (target : Address)
  /-- the walk goes on at the target -/
  | go (block : BasicBlock) (target : Address) (next : Region)
  | ret (block : BasicBlock)
  /-- the block has no successor -/
  | stuck (block : BasicBlock)

namespace Region

def visits : Region → Finset Address
  | skip => ∅
  | missing address => {address}
  | loop b _ _ _ next => insert b.startAddress next.visits
  | doWhile b _ _ _ body => insert b.startAddress body.visits
  | fork b _ _ _ body next => insert b.startAddress (body.visits ∪ next.visits)
  | jump b _ | ret b | stuck b => {b.startAddress}
  | go b _ next => insert b.startAddress next.visits

def taken : Region → List BasicBlock
  | skip | missing _ => []
  | loop b _ _ _ next => b :: next.taken
  | doWhile b _ _ _ body => b :: body.taken
  | fork b _ _ _ body next => b :: (body.taken ++ next.taken)
  | jump b _ | ret b | stuck b => [b]
  | go b _ next => b :: next.taken

end Region

def headNodes (b : BasicBlock) : List HighLevelAst :=
  blockNodes b.startAddress (Scan.ofBlock b).ops

def wrapNodes : List HighLevelAst → HighLevelAst
  | [node] => node
  | nodes => .seq nodes

theorem wrap_eq_ok (nodes : List HighLevelAst) : wrap nodes = .ok (wrapNodes nodes) := by
  match nodes with
  | [] => rfl
  | [node] => rfl
  | a :: b :: l => simp [wrap, wrapNodes]

section Calls

variable {f : Function} {backEdges : Finset (Address × Address)} {curr : Address}
  {stop : Option Address} {visited : Finset Address} {b : BasicBlock}

theorem regionLoop_of_done (fuel : ℕ) (hdone : some curr = stop ∨ curr ∈ visited) :
    regionLoop f backEdges (fuel + 1) curr stop visited = .ok ([], visited) := by
  rw [regionLoop, if_pos hdone]
  rfl

theorem regionLoop_of_missing (fuel : ℕ) (hnew : ¬(some curr = stop ∨ curr ∈ visited))
    (hat : f.blockAt curr = .ok none) :
    regionLoop f backEdges (fuel + 1) curr stop visited = .ok ([], insert curr visited) := by
  rw [regionLoop, if_neg hnew, hat]
  rfl

theorem regionLoop_of_error (fuel : ℕ) (hnew : ¬(some curr = stop ∨ curr ∈ visited))
    (hat : f.blockAt curr = .error .outOfBounds) :
    regionLoop f backEdges (fuel + 1) curr stop visited = .error .outOfBounds := by
  rw [regionLoop, if_neg hnew, hat]
  rfl

theorem regionLoop_of_block (fuel : ℕ) (hnew : ¬(some curr = stop ∨ curr ∈ visited))
    (hat : f.blockAt curr = .ok (some b)) :
    regionLoop f backEdges (fuel + 1) curr stop visited =
      let head := blockNodes curr (Scan.ofBlock b).ops
      let seen := insert curr visited
      match exitOf b with
      | .cond cond t e =>
        if (curr, t) ∈ backEdges then
          regionLoop f backEdges fuel e stop seen >>= fun p =>
            .ok (head ++ .whileDo cond (.goto t) :: p.1, p.2)
        else if (curr, e) ∈ backEdges then
          regionLoop f backEdges fuel t (some e) seen >>= fun p =>
            .ok (head ++ [.ifElse cond (wrapNodes p.1) none, .goto e], p.2)
        else
          regionLoop f backEdges fuel t (some e) seen >>= fun p =>
            regionLoop f backEdges fuel e stop p.2 >>= fun q =>
              .ok (head ++ .ifElse cond (wrapNodes p.1) none :: q.1, q.2)
      | .jump target =>
        if (curr, target) ∈ backEdges ∨ target ∈ seen then .ok (head ++ [.goto target], seen)
        else regionLoop f backEdges fuel target stop seen >>= fun p => .ok (head ++ p.1, p.2)
      | .ret => .ok (head ++ [.ret], seen)
      | .next next =>
        if next ∈ seen then .ok (head ++ [.goto next], seen)
        else regionLoop f backEdges fuel next stop seen >>= fun p => .ok (head ++ p.1, p.2)
      | .none => .ok (head, seen) := by
  rw [regionLoop, if_neg hnew, hat]
  simp only [Fallible.ok_bind, exitOf, wrap_eq_ok]
  cases (Scan.ofBlock b).termCond with
  | some cond => rfl
  | none =>
    cases (Scan.ofBlock b).unconditional with
    | some target => rfl
    | none =>
      cases (Scan.ofBlock b).isReturn with
      | true => rfl
      | false => cases b.successors.head? <;> rfl

end Calls

def Region.nodes : Region → List HighLevelAst
  | skip | missing _ => []
  | loop b cond t _ next => headNodes b ++ .whileDo cond (.goto t) :: next.nodes
  | doWhile b cond _ f body =>
    headNodes b ++ [.ifElse cond (wrapNodes body.nodes) none, .goto f]
  | fork b cond _ _ body next =>
    headNodes b ++ .ifElse cond (wrapNodes body.nodes) none :: next.nodes
  | jump b target => headNodes b ++ [.goto target]
  | go b _ next => headNodes b ++ next.nodes
  | ret b => headNodes b ++ [.ret]
  | stuck b => headNodes b

variable (bs : List BasicBlock) (backEdges : Finset (Address × Address))

/-- The walk without its syntax tree. -/
def explore : ℕ → Address → Option Address → Finset Address → Except Fault Region
  | 0, _, _, _ => .error .outOfFuel
  | fuel + 1, curr, stop, seen =>
    if some curr = stop ∨ curr ∈ seen then .ok .skip
    else
      match blockStarting bs curr with
      | none => .ok (.missing curr)
      | some b =>
        let seen := insert curr seen
        match exitOf b with
        | .cond cond t f =>
          if (curr, t) ∈ backEdges then
            (explore fuel f stop seen).map (.loop b cond t f)
          else if (curr, f) ∈ backEdges then
            (explore fuel t (some f) seen).map (.doWhile b cond t f)
          else do
            let body ← explore fuel t (some f) seen
            (explore fuel f stop (seen ∪ body.visits)).map (.fork b cond t f body)
        | .jump target =>
          if (curr, target) ∈ backEdges ∨ target ∈ seen then .ok (.jump b target)
          else (explore fuel target stop seen).map (.go b target)
        | .ret => .ok (.ret b)
        | .next next =>
          if next ∈ seen then .ok (.jump b next)
          else (explore fuel next stop seen).map (.go b next)
        | .none => .ok (.stuck b)

variable {bs backEdges}

theorem bind_ok_eq_map {ε α β γ δ : Type} (x : Except ε α) {h : α → β} {k : β → γ}
    {c : α → δ} {m : δ → γ} (hk : ∀ a, k (h a) = m (c a)) :
    (x.map h >>= fun b => .ok (k b)) = (x.map c).map m := by
  cases x with
  | error e => rfl
  | ok a => exact congrArg Except.ok (hk a)

/-- The walker explores and prints. -/
theorem regionLoop_eq {g : Function} (hat : ∀ a, g.blockAt a = .ok (blockStarting g.blocks a))
    (fuel : ℕ) (curr : Address) (stop : Option Address) (seen : Finset Address) :
    regionLoop g backEdges fuel curr stop seen =
      (explore g.blocks backEdges fuel curr stop seen).map
        fun r => (r.nodes, seen ∪ r.visits) := by
  induction fuel generalizing curr stop seen with
  | zero => rfl
  | succ fuel ih =>
    rw [explore]
    split
    case isTrue hdone =>
      rw [regionLoop_of_done fuel hdone]
      simp [Except.map, Region.nodes, Region.visits]
    case isFalse hnew =>
      have hone : insert curr seen = seen ∪ {curr} := by
        rw [Finset.union_comm, Finset.insert_eq]
      cases hb : blockStarting g.blocks curr with
      | none =>
        rw [regionLoop_of_missing fuel hnew (by rw [hat, hb])]
        exact congrArg (fun s => Except.ok ([], s)) hone
      | some b =>
        rw [regionLoop_of_block fuel hnew (by rw [hat, hb])]
        obtain rfl : b.startAddress = curr := by simpa using List.find?_some hb
        have hinsert : ∀ s, insert b.startAddress seen ∪ s = seen ∪ insert b.startAddress s := by
          intro s
          rw [Finset.insert_union, Finset.union_insert]
        dsimp only
        cases exitOf b with
        | cond cond t e =>
          dsimp only
          split
          case isTrue =>
            rw [ih]
            exact bind_ok_eq_map _ fun r => Prod.ext rfl (hinsert _)
          case isFalse =>
            rw [ih]
            split
            case isTrue => exact bind_ok_eq_map _ fun r => Prod.ext rfl (hinsert _)
            case isFalse =>
              cases explore g.blocks backEdges fuel t (some e) (insert b.startAddress seen) with
              | error e => rfl
              | ok body =>
                simp only [Fallible.ok_bind, Except.map]
                rw [ih]
                refine bind_ok_eq_map _ fun r => Prod.ext rfl ?_
                rw [Finset.union_assoc]
                exact hinsert _
        | jump target | next target =>
          dsimp only
          split
          case isTrue => exact congrArg Except.ok (Prod.ext rfl hone)
          case isFalse =>
            rw [ih]
            exact bind_ok_eq_map _ fun r => Prod.ext rfl (hinsert _)
        | ret | none => exact congrArg Except.ok (Prod.ext rfl hone)

section Explores

variable (bs backEdges)

/-- The walk takes a block at an address. -/
structure Takes (curr : Address) (stop : Option Address) (seen : Finset Address)
    (b : BasicBlock) : Prop where
  ne_stop : some curr ≠ stop
  not_seen : curr ∉ seen
  block : blockStarting bs curr = some b

/-- The exploration as a relation, with one rule for each shape of tree. -/
inductive Explores : Address → Option Address → Finset Address → Region → Prop
  | skip {curr : Address} {stop : Option Address} {seen : Finset Address}
    (h : some curr = stop ∨ curr ∈ seen) : Explores curr stop seen .skip
  | missing {curr : Address} {stop : Option Address} {seen : Finset Address}
    (ne_stop : some curr ≠ stop) (not_seen : curr ∉ seen)
    (block : blockStarting bs curr = none) : Explores curr stop seen (.missing curr)
  | loop {curr t f : Address} {stop : Option Address} {seen : Finset Address} {b : BasicBlock}
    {cond : Varnode} {next : Region} (takes : Takes bs curr stop seen b)
    (exit : exitOf b = .cond cond t f) (back : (curr, t) ∈ backEdges)
    (more : Explores f stop (insert curr seen) next) :
    Explores curr stop seen (.loop b cond t f next)
  | doWhile {curr t f : Address} {stop : Option Address} {seen : Finset Address}
    {b : BasicBlock} {cond : Varnode} {body : Region} (takes : Takes bs curr stop seen b)
    (exit : exitOf b = .cond cond t f) (not_back : (curr, t) ∉ backEdges)
    (back : (curr, f) ∈ backEdges) (inner : Explores t (some f) (insert curr seen) body) :
    Explores curr stop seen (.doWhile b cond t f body)
  | fork {curr t f : Address} {stop : Option Address} {seen : Finset Address} {b : BasicBlock}
    {cond : Varnode} {body next : Region} (takes : Takes bs curr stop seen b)
    (exit : exitOf b = .cond cond t f) (not_back : (curr, t) ∉ backEdges)
    (not_back' : (curr, f) ∉ backEdges)
    (inner : Explores t (some f) (insert curr seen) body)
    (more : Explores f stop (insert curr seen ∪ body.visits) next) :
    Explores curr stop seen (.fork b cond t f body next)
  | jump {curr target : Address} {stop : Option Address} {seen : Finset Address}
    {b : BasicBlock} (takes : Takes bs curr stop seen b)
    (exit : (exitOf b = .jump target ∧ (curr, target) ∈ backEdges) ∨
      ((exitOf b = .jump target ∨ exitOf b = .next target) ∧ target ∈ insert curr seen)) :
    Explores curr stop seen (.jump b target)
  | go {curr target : Address} {stop : Option Address} {seen : Finset Address} {b : BasicBlock}
    {next : Region} (takes : Takes bs curr stop seen b)
    (exit : (exitOf b = .jump target ∧ (curr, target) ∉ backEdges) ∨ exitOf b = .next target)
    (not_seen : target ∉ insert curr seen)
    (more : Explores target stop (insert curr seen) next) :
    Explores curr stop seen (.go b target next)
  | ret {curr : Address} {stop : Option Address} {seen : Finset Address} {b : BasicBlock}
    (takes : Takes bs curr stop seen b) (exit : exitOf b = .ret) :
    Explores curr stop seen (.ret b)
  | stuck {curr : Address} {stop : Option Address} {seen : Finset Address} {b : BasicBlock}
    (takes : Takes bs curr stop seen b) (exit : exitOf b = .none) :
    Explores curr stop seen (.stuck b)

variable {bs backEdges}

theorem Takes.start {curr : Address} {stop : Option Address} {seen : Finset Address}
    {b : BasicBlock} (h : Takes bs curr stop seen b) : b.startAddress = curr := by
  simpa using List.find?_some h.block

theorem Takes.mem {curr : Address} {stop : Option Address} {seen : Finset Address}
    {b : BasicBlock} (h : Takes bs curr stop seen b) : b ∈ bs := List.mem_of_find?_eq_some h.block

theorem map_eq_ok {ε α β : Type} {x : Except ε α} {f : α → β} {y : β}
    (h : x.map f = .ok y) : ∃ a, x = .ok a ∧ f a = y := by
  cases x with
  | error e => cases h
  | ok a => exact ⟨a, rfl, Except.ok.inj h⟩

theorem explores_of_explore {fuel : ℕ} {curr : Address} {stop : Option Address}
    {seen : Finset Address} {r : Region}
    (h : explore bs backEdges fuel curr stop seen = .ok r) :
    Explores bs backEdges curr stop seen r := by
  induction fuel generalizing curr stop seen r with
  | zero => cases h
  | succ fuel ih =>
    rw [explore] at h
    split at h
    case isTrue hskip => exact Except.ok.inj h ▸ .skip hskip
    case isFalse hnew =>
      obtain ⟨hstop, hseen⟩ := not_or.mp hnew
      split at h
      case h_1 hb => exact Except.ok.inj h ▸ .missing hstop hseen hb
      case h_2 b hb =>
        have htakes : Takes bs curr stop seen b := ⟨hstop, hseen, hb⟩
        dsimp only at h
        split at h
        case h_1 cond t f hexit =>
          split at h
          case isTrue hback =>
            obtain ⟨next, hnext, rfl⟩ := map_eq_ok h
            exact .loop htakes hexit hback (ih hnext)
          case isFalse ht =>
            split at h
            case isTrue hback =>
              obtain ⟨body, hbody, rfl⟩ := map_eq_ok h
              exact .doWhile htakes hexit ht hback (ih hbody)
            case isFalse hf =>
              obtain ⟨body, hbody, h⟩ := Fallible.bind_eq_ok.mp h
              obtain ⟨next, hnext, rfl⟩ := map_eq_ok h
              exact .fork htakes hexit ht hf (ih hbody) (ih hnext)
        case h_2 target hexit =>
          split at h
          case isTrue hjump =>
            rw [← Except.ok.inj h]
            refine .jump htakes ?_
            rcases hjump with hback | hmem
            · exact Or.inl ⟨hexit, hback⟩
            · exact Or.inr ⟨Or.inl hexit, hmem⟩
          case isFalse hgo =>
            obtain ⟨hback, hmem⟩ := not_or.mp hgo
            obtain ⟨next, hnext, rfl⟩ := map_eq_ok h
            exact .go htakes (Or.inl ⟨hexit, hback⟩) hmem (ih hnext)
        case h_3 hexit => exact Except.ok.inj h ▸ .ret htakes hexit
        case h_4 next hexit =>
          split at h
          case isTrue hmem => exact Except.ok.inj h ▸ .jump htakes (Or.inr ⟨Or.inr hexit, hmem⟩)
          case isFalse hmem =>
            obtain ⟨r, hr, rfl⟩ := map_eq_ok h
            exact .go htakes (Or.inr hexit) hmem (ih hr)
        case h_5 hexit => exact Except.ok.inj h ▸ .stuck htakes hexit

theorem exists_explore {fuel : ℕ} {curr : Address} {stop : Option Address}
    {seen : Finset Address} (hfuel : (starts bs \ seen).card < fuel) :
    ∃ r, explore bs backEdges fuel curr stop seen = .ok r := by
  induction fuel generalizing curr stop seen with
  | zero => exact absurd hfuel (Nat.not_lt_zero _)
  | succ fuel ih =>
    rw [explore]
    split
    case isTrue => exact ⟨_, rfl⟩
    case isFalse hnew =>
      split
      case h_1 => exact ⟨_, rfl⟩
      case h_2 b hb =>
        have hcurr : curr ∈ starts bs :=
          mem_starts.mpr ⟨b, List.mem_of_find?_eq_some hb, by simpa using List.find?_some hb⟩
        have hless : ∀ s, insert curr seen ⊆ s → (starts bs \ s).card < fuel := by
          intro s hs
          have hlt := DepthFirst.card_sdiff_lt hcurr (fun h => hnew (Or.inr h)) hs
          omega
        have hmap : ∀ {a stop s} (c : Region → Region), insert curr seen ⊆ s →
            ∃ r, (explore bs backEdges fuel a stop s).map c = .ok r := by
          intro a stop s c hs
          obtain ⟨r, hr⟩ := @ih a stop s (hless s hs)
          exact ⟨c r, by rw [hr]; rfl⟩
        dsimp only
        split
        case h_1 cond t f hexit =>
          split
          case isTrue => exact hmap _ (Finset.Subset.refl _)
          case isFalse =>
            split
            case isTrue => exact hmap _ (Finset.Subset.refl _)
            case isFalse =>
              obtain ⟨body, hbody⟩ := @ih t (some f) _ (hless _ (Finset.Subset.refl _))
              rw [hbody, Fallible.ok_bind]
              exact hmap _ Finset.subset_union_left
        case h_2 =>
          split
          case isTrue => exact ⟨_, rfl⟩
          case isFalse => exact hmap _ (Finset.Subset.refl _)
        case h_3 => exact ⟨_, rfl⟩
        case h_4 =>
          split
          case isTrue => exact ⟨_, rfl⟩
          case isFalse => exact hmap _ (Finset.Subset.refl _)
        case h_5 => exact ⟨_, rfl⟩

end Explores

def regionOf (g : Function) : Except Fault Region := do
  let backEdges ← findBackEdges g
  explore g.blocks backEdges (g.blocks.length + 2) g.entry none ∅

/-- The structurer returns the printed tree of the function. -/
theorem doStructure_eq_ok {g : Function} (hg : IsLinked g)
    (hentry : ∃ b ∈ g.blocks, b.startAddress = g.entry) :
    ∃ backEdges r, IsBackEdges g backEdges ∧ findBackEdges g = .ok backEdges ∧
      regionOf g = .ok r ∧ Explores g.blocks backEdges g.entry none ∅ r ∧
        doStructure g = .ok (wrapNodes r.nodes) := by
  obtain ⟨backEdges, hfind, hback⟩ := findBackEdges_eq_ok hg
  have hfuel : (starts g.blocks \ ∅).card < g.blocks.length + 2 := by
    rw [Finset.sdiff_empty]
    have hcard : (starts g.blocks).card ≤ g.blocks.length := by
      simpa [starts] using (g.blocks.map BasicBlock.startAddress).toFinset_card_le
    omega
  obtain ⟨r, hr⟩ := @exists_explore g.blocks backEdges _ g.entry none _ hfuel
  have hne : g.blocks ≠ [] := by
    rintro hnil
    simp [hnil] at hentry
  refine ⟨backEdges, r, hback, hfind, ?_, explores_of_explore hr, ?_⟩
  · rw [regionOf, hfind, Fallible.ok_bind, hr]
  · have hregion : structureRegion g backEdges (g.blocks.length + 2) g.entry none ∅ =
        .ok (wrapNodes r.nodes, ∅ ∪ r.visits) := by
      rw [structureRegion, regionLoop_eq hg.blockAt, hr]
      simp only [Except.map, Fallible.ok_bind, wrap_eq_ok]
      rfl
    rw [doStructure, if_neg hne, hfind, Fallible.ok_bind, hregion]
    rfl

end Decompiler.Structurer
