import Decompiler.Library.Divergence
import Decompiler.Structurer.Evaluation

/-! # Where the graph ends

The machine that executes operations one by one and the one that executes blocks come to an end
together, behind the last block or where control leaves the function.
-/

namespace Decompiler.Structurer

open Cfg StateTransition

variable {callee : BranchTarget → State → State}

def Place.config? (σ : State) : Place → Option Cfg.Config
  | .block a => some ⟨a, 0, σ⟩
  | .left _ | .finished => none

section Graph

variable {bs : List BasicBlock} (hnd : (bs.map BasicBlock.startAddress).Nodup)

include hnd

theorem enter_eq_config (a : Address) (σ : State) :
    enter bs (some a) σ = (branchTo bs a).config? σ := by
  rw [branchTo]
  split_ifs with hmem
  · obtain ⟨b, hb, rfl⟩ := Cfg.mem_starts.mp hmem
    exact (enter_eq_some hnd).mpr ⟨b, hb, rfl, rfl⟩
  · rw [enter, Option.bind_some]
    cases hfound : blockStarting bs a with
    | none => rfl
    | some b =>
      obtain ⟨hb, rfl⟩ := (blockStarting_eq_some hnd).mp hfound
      exact absurd (Cfg.mem_starts.mpr ⟨b, hb, rfl⟩) hmem

theorem enter_nextAfter {b : BasicBlock} (hb : b ∈ bs) (σ : State) :
    enter bs (nextAfter bs b.startAddress) σ = (fallFrom bs b.startAddress).config? σ := by
  rw [fallFrom]
  cases hnext : nextAfter bs b.startAddress with
  | none => rfl
  | some a =>
    obtain ⟨d, hbd, rfl⟩ := (nextAfter_eq_some hnd hb).mp hnext
    exact (enter_eq_some hnd).mpr ⟨d, hbd.mem_right, rfl, rfl⟩

theorem exists_run_of_graphExec {a : Address} {σ σ' : State} {p : Place}
    (h : graphExec callee bs (.block a, σ) = some (p, σ')) :
    ∃ n, Cfg.run callee bs ⟨a, 0, σ⟩ n = p.config? σ' := by
  obtain ⟨b, hfound, hmap⟩ := Option.bind_eq_some_iff.mp h
  obtain ⟨⟨τ, control⟩, hexec, heq⟩ := Option.map_eq_some_iff.mp hmap
  obtain ⟨rfl, rfl⟩ := Prod.mk.inj heq
  obtain ⟨hb, rfl⟩ := (blockStarting_eq_some hnd).mp hfound
  have hafter : ∀ {c : Cfg.Config} {next : Option Cfg.Config},
      RunsTo callee bs ⟨b.startAddress, 0, σ⟩ c → Cfg.step callee bs c = next →
      ∃ n, Cfg.run callee bs ⟨b.startAddress, 0, σ⟩ n = next := by
    rintro c next ⟨n, hn⟩ rfl
    exact ⟨n + 1, by rw [Cfg.run, hn, Option.bind_some]⟩
  by_cases hfall : control = .fall
  · subst hfall
    have hops : b.ops = [] ++ b.ops ++ [] := by simp
    refine hafter (runsTo_of_fall hfound hops hexec) ?_
    rw [Cfg.step, hfound, Option.bind_some, List.nil_append, List.getElem?_length]
    exact enter_nextAfter hnd hb τ
  · obtain ⟨before, op, rest, hops, hbefore, hcontrol⟩ := exists_transfer hexec hfall
    have hsplit : b.ops = [] ++ before ++ op :: rest := hops
    have hat : opAt bs ⟨b.startAddress, ([] ++ before).length, τ⟩ = some op :=
      opAt_of_split hfound hops
    refine hafter (runsTo_of_fall hfound hsplit hbefore) ?_
    cases control with
    | fall => exact absurd rfl hfall
    | stop => exact step_of_stop hat hcontrol
    | jump target =>
      rw [step_of_jump hat hcontrol]
      cases target with
      | absolute t => exact enter_eq_config hnd t τ
      | indirect => rfl

/-- If the blocks come to an end, so do the operations. -/
theorem exists_run_eq_none (hwf : ∀ b ∈ bs, ∀ op ∈ b.ops, op.WellFormed) {a : Address} {σ : State}
    (h : (eval (graphExec callee bs) (.block a, σ)).Dom) :
    ∃ n, Cfg.run callee bs ⟨a, 0, σ⟩ n = none := by
  refine Divergence.dom_induction
    (fun x => ∃ n, (x.1.config? x.2).bind (Cfg.run callee bs · n) = none) h ?_
  rintro ⟨p, σ⟩ ih
  cases p with
  | left | finished => exact ⟨0, rfl⟩
  | block a =>
    cases hstep : graphExec callee bs (.block a, σ) with
    | some y =>
      obtain ⟨n, hn⟩ := exists_run_of_graphExec hnd hstep
      obtain ⟨m, hm⟩ := ih y (.single hstep)
      refine ⟨n + m, ?_⟩
      show Cfg.run callee bs ⟨a, 0, σ⟩ (n + m) = none
      rw [run_add, hn]
      exact hm
    | none =>
      refine ⟨1, ?_⟩
      show Cfg.step callee bs ⟨a, 0, σ⟩ = none
      cases hfound : blockStarting bs a with
      | none => rw [Cfg.step, hfound, Option.bind_none]
      | some b =>
        obtain ⟨hb, -⟩ := (blockStarting_eq_some hnd).mp hfound
        obtain ⟨⟨σ', control⟩, hexec⟩ := @exists_execOps callee b.ops (hwf b hb) σ
        cases (graphExec_eq hfound hexec).symm.trans hstep

end Graph

theorem Within.finished {flat : List LiftedInstruction} {g : Function} (hg : IsGraphOf flat g)
    {x : Place × State} {c : Cfg.Config} (h : Within callee g.blocks x c)
    (hop : opAt g.blocks c = none) (hnext : nextAfter g.blocks c.block = none) :
    GraphRuns callee g.blocks x (.finished, c.state) := by
  obtain ⟨b, σ, hruns, hin, hexec⟩ := h.exists_start
  have hfound : blockStarting g.blocks b.startAddress = some b :=
    (blockStarting_eq_some hg.nodup_starts).mpr ⟨hin.mem, rfl⟩
  rw [opAt, ← hin.start, hfound, Option.bind_some] at hop
  rw [List.take_of_length_le (List.getElem?_eq_none_iff.mp hop)] at hexec
  have hstep := graphExec_eq hfound hexec
  rw [placeAfter, fallFrom, hin.start, hnext] at hstep
  rw [hin.start] at hruns
  exact hruns.tail hstep

end Decompiler.Structurer
