import Mathlib.Data.List.Chain
import Mathlib.Order.Bounds.Defs
import ProcCompiler.Proofs.Graph.Analyze
import ProcCompiler.Proofs.Graph.Needs
/-!
# Needs are liveness

What the search finds for a block is what is live there. Two accounts of liveness are given, and the
search agrees with both: a path of jumps leads from the block to one that waits for the variable,
and no block before that one binds it; or, the variable belongs to every family of sets that holds
the parameters of the reached blocks and hands each need back to the predecessors that do not bind
it.

* `needed_iff_exposing`: a need is a path.
* `isLeast_needed`: the needs are the least family.
* `needs_liveness`: the search, for every routine with a flow graph.
-/
namespace ProcCompiler

namespace Routine

/-- The blocks of a path of jumps from `b` to a block that waits for `v`, where no block before that
one binds `v`. -/
structure Exposing (f : Routine) (g : FlowGraph) (b : BlockId) (v : Var) (path : List BlockId) :
    Prop where
  first : path.head? = some b
  jumps : path.IsChain fun p c => c ∈ g.succs p
  last : ∃ c ∈ path.getLast?, v ∈ (f.block c).params
  free : ∀ p ∈ path.dropLast, (f.block p).binding? v = none

/-- The family holds what the reached blocks wait for, and what a successor of a reached block has
in it and the block does not bind. -/
structure HandsBack (f : Routine) (g : FlowGraph) (family : BlockId → Set Var) : Prop where
  params : ∀ b, g.Reach b → ∀ v ∈ (f.block b).params, v ∈ family b
  back : ∀ b, g.Reach b → ∀ c ∈ g.succs b, ∀ v ∈ family c, (f.block b).binding? v = none →
    v ∈ family b

variable {f : Routine}

/-! ## Paths -/

theorem Exposing.single {g : FlowGraph} {b : BlockId} {v : Var} (hv : v ∈ (f.block b).params) :
    f.Exposing g b v [b] where
  first := rfl
  jumps := List.isChain_singleton b
  last := ⟨b, rfl, hv⟩
  free _ hp := by cases hp

theorem Exposing.cons {g : FlowGraph} {p b : BlockId} {v : Var} {path : List BlockId}
    (h : f.Exposing g b v path) (hb : b ∈ g.succs p) (hfree : (f.block p).binding? v = none) :
    f.Exposing g p v (p :: path) := by
  obtain ⟨hfirst, hjumps, hlast, hbefore⟩ := h
  cases path with
  | nil => cases hfirst
  | cons c path =>
    cases hfirst
    refine ⟨rfl, .cons_cons hb hjumps, hlast, fun q hq => ?_⟩
    rcases List.mem_cons.mp hq with rfl | hq
    · exact hfree
    · exact hbefore q hq

/-- A need is a path to a block that waits. -/
theorem Closed.needed_iff_exposing (hf : f.Closed) {b : BlockId} {v : Var} :
    Needed f f.graph b v ↔ f.graph.Reach b ∧ ∃ path, f.Exposing f.graph b v path := by
  constructor
  · intro h
    refine ⟨hf.mem_order.mp h.mem_order, ?_⟩
    induction h with
    | param _ hv => exact ⟨_, .single hv⟩
    | back hp hfree _ ih =>
      obtain ⟨path, hpath⟩ := ih
      exact ⟨_, hpath.cons (FlowGraph.mem_preds.mp hp).2 hfree⟩
  · rintro ⟨hb, path, hfirst, hjumps, hlast, hfree⟩
    -- from the front of the path: the rest of it shows the need of the next block
    induction path generalizing b with
    | nil => cases hfirst
    | cons c path ih =>
      cases hfirst
      cases path with
      | nil =>
        obtain ⟨c, hc, hv⟩ := hlast
        cases hc
        exact .param (hf.mem_order.mpr hb) hv
      | cons d path =>
        obtain ⟨hd, hjumps⟩ := List.isChain_cons_cons.mp hjumps
        refine .back (FlowGraph.mem_preds.mpr ⟨hf.mem_order.mpr hb, hd⟩)
          (hfree c List.mem_cons_self) ?_
        exact ih (.step hb hd) rfl hjumps hlast fun p hp => hfree p (List.mem_cons_of_mem _ hp)

/-! ## The least family -/

theorem Closed.isLeast_needed (hf : f.Closed) :
    IsLeast {family | f.HandsBack f.graph family} fun b => {v | Needed f f.graph b v} := by
  constructor
  · exact ⟨fun b hb v hv => .param (hf.mem_order.mpr hb) hv, fun b hb c hc v hv hfree =>
      .back (FlowGraph.mem_preds.mpr ⟨hf.mem_order.mpr hb, hc⟩) hfree hv⟩
  · intro family hfamily b v (hv : Needed f f.graph b v)
    show v ∈ family b
    induction hv with
    | param hb hv => exact hfamily.params _ (hf.mem_order.mp hb) _ hv
    | back hp hfree _ ih =>
      obtain ⟨hp, hs⟩ := FlowGraph.mem_preds.mp hp
      exact hfamily.back _ (hf.mem_order.mp hp) _ hs _ ih hfree

end Routine

theorem Needs.has_iff {n : Needs} {b : BlockId} {v : Var} : n.has b v = true ↔ v ∈ n.of b := by
  rw [has, List.contains_iff_mem, mem_of]

/-- The search for needs succeeds if no reached block waits for a negative variable. It finds
exactly what is live: a variable for which a path leads from a reached block to one that waits, past
no block that binds it. It lists each such variable once, and what it finds is the least family of
sets that hands needs back. -/
theorem needs_liveness {f : Routine} {g : FlowGraph} (hg : f.analyze = .ok g)
    (hv : ∀ b ∈ g.order, ∀ v ∈ (f.block b).params, 0 ≤ v) :
    ∃ n, f.needs g = .ok n ∧
      (∀ b v, n.has b v = true ↔ g.Reach b ∧ ∃ path, f.Exposing g b v path) ∧
      (∀ b, (n.of b).Nodup ∧ ∀ v, v ∈ n.of b ↔ n.has b v = true) ∧
      IsLeast {family | f.HandsBack g family} fun b => {v | n.has b v = true} := by
  have hf := Routine.closed_of_analyze hg
  obtain rfl := Routine.eq_graph_of_analyze hg
  obtain ⟨n, hn⟩ := Routine.exists_needs hv
  have hhas : ∀ b v, n.has b v = true ↔ Routine.Needed f f.graph b v := fun b v => by
    rw [Needs.has_iff, Routine.mem_of_iff hn]
  refine ⟨n, hn, fun b v => (hhas b v).trans hf.needed_iff_exposing,
    fun b => ⟨Needs.nodup_of (Routine.nodup_sites hn) b, fun v => Needs.has_iff.symm⟩, ?_⟩
  simp only [hhas]
  exact hf.isLeast_needed

/-- Block 1 hands `x` to a function and keeps the result in it, block 2 goes back there as long as
`y` says so, and block 3 copies `z` to `x`. Nothing leads to block 4, which waits for `w`. -/
def pumpRoutine : Routine where
  name := "pump"
  blocks := #[{},
    ({ params := [0], body := [.call 0 0 (.param 0)], exit := some (.jump 2) } : Block).bind 0 0,
    { params := [1], exit := some (.branch (.param 0) 1 3) },
    ({ params := [2], body := [.move 1 (.param 0)], exit := some .ret } : Block).bind 0 1,
    { params := [3], exit := some (.branch (.param 0) 1 1) }]
  regs := #[{ var := 0 }, { var := 0 }]
  vars := #["x", "y", "z", "w"]
  route := 1

def pumpGraph : FlowGraph where
  table := #[[1], [2], [1, 3], [], [1]]
  order := [0, 1, 2, 3]

/-- Block 1 binds `x` and still needs it, and so does block 2 before it. -/
theorem needs_liveness_pump : pumpRoutine.analyze = .ok pumpGraph ∧
    (∀ b ∈ pumpGraph.order, ∀ v ∈ (pumpRoutine.block b).params, 0 ≤ v) ∧
    ∃ n, pumpRoutine.needs pumpGraph = .ok n ∧ n.of 1 = [0, 1, 2] ∧ n.of 2 = [1, 0, 2] ∧
      (∀ b v, n.has b v = true ↔ pumpGraph.Reach b ∧
        ∃ path, pumpRoutine.Exposing pumpGraph b v path) ∧
      (∀ b, (n.of b).Nodup ∧ ∀ v, v ∈ n.of b ↔ n.has b v = true) ∧
      IsLeast {family | pumpRoutine.HandsBack pumpGraph family} fun b =>
        {v | n.has b v = true} := by
  have hg : pumpRoutine.analyze = .ok pumpGraph := by decide +kernel
  have hv : ∀ b ∈ pumpGraph.order, ∀ v ∈ (pumpRoutine.block b).params, 0 ≤ v := by decide +kernel
  have hrun : (pumpRoutine.needs pumpGraph).map (fun n => (n.of 1, n.of 2)) =
      .ok ([0, 1, 2], [1, 0, 2]) := by
    decide +kernel
  obtain ⟨n, hn, hlive⟩ := needs_liveness hg hv
  rw [hn] at hrun
  obtain ⟨h1, h2⟩ := Prod.mk.inj (Except.ok.inj hrun)
  exact ⟨hg, hv, n, hn, h1, h2, hlive⟩

end ProcCompiler
