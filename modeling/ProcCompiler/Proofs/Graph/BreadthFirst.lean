import Mathlib.Data.Nat.Find
import ProcCompiler.Proofs.Graph.Survey
/-!
# The order of a flow graph is breadth-first

Exploration draws layer after layer. A layer holds the nodes at one distance from the first node,
and the pool holds the nodes that are farther away or out of reach (`Frontier`). So exploration
lists its nodes by distance, and in a flow graph a block other than the entry stands after the block
before it on a shortest walk. The tables of a graph are filled by a loop that follows up one block
after another (`Survey`), and they show the same order.

* `Frontier.advance`: what the drawing of a layer keeps.
* `pairwise_explore`: exploration lists nearer nodes first.
* `Routine.Goes`: where control can go from a block, by the routine itself.
* `Routine.Closed.exists_shows`: the survey of a routine.
* `analyze_breadthFirst`: the graph of a routine and its tables, in every part.
-/
namespace ProcCompiler

/-! ## Walks and layers -/

/-- A walk of so many steps leads from `a` to a node. -/
inductive Walk {α : Type} (R : α → α → Prop) (a : α) : Nat → α → Prop where
  | start : Walk R a 0 a
  | step {k : Nat} {x y : α} (h : Walk R a k x) (hxy : R x y) : Walk R a (k + 1) y

namespace Walk

variable {α : Type} {R : α → α → Prop} {a : α}

/-- What a step keeps is kept along a walk. -/
theorem preserves {P : α → Prop} (ha : P a) (hR : ∀ x y, P x → R x y → P y) {k : Nat} {x : α}
    (h : Walk R a k x) :
    P x := by
  induction h with
  | start => exact ha
  | step _ hxy ih => exact hR _ _ ih hxy

theorem reflTransGen {k : Nat} {x : α} (h : Walk R a k x) : Relation.ReflTransGen R a x := by
  induction h with
  | start => exact .refl
  | step _ hxy ih => exact .tail ih hxy

theorem exists_of_reflTransGen {x : α} (h : Relation.ReflTransGen R a x) : ∃ k, Walk R a k x := by
  induction h with
  | refl => exact ⟨0, .start⟩
  | tail _ hxy ih => exact ih.imp' (· + 1) fun _ hw => .step hw hxy

end Walk

/-- The steps of a shortest walk from `a` to `x`. -/
structure Distance {α : Type} (R : α → α → Prop) (a x : α) (d : Nat) : Prop where
  walk : Walk R a d x
  least : ∀ k, Walk R a k x → d ≤ k

namespace Distance

variable {α : Type} {R : α → α → Prop} {a x y : α}

theorem exists_of_reflTransGen (h : Relation.ReflTransGen R a x) : ∃ d, Distance R a x d := by
  classical
  have hwalk := Walk.exists_of_reflTransGen h
  exact ⟨Nat.find hwalk, Nat.find_spec hwalk, fun _ => Nat.find_min' hwalk⟩

/-- A shortest walk is shortest up to its last step. -/
theorem exists_pred {k : Nat} (h : Distance R a y (k + 1)) : ∃ x, Distance R a x k ∧ R x y := by
  cases h.walk with
  | @step _ x _ hx hxy =>
    refine ⟨x, ⟨hx, fun j hj => ?_⟩, hxy⟩
    exact Nat.le_of_succ_le_succ (h.least (j + 1) (.step hj hxy))

end Distance

section Exploration

variable {α : Type} [Ord α] [Std.TransOrd α] {next : α → List α} {a : α} {P : α → Prop}

/-- The layer holds the nodes at distance `k`, the pool the nodes of `P` that are not as near. -/
structure Frontier (next : α → List α) (a : α) (P : α → Prop) (k : Nat) (layer : List α)
    (pool : Std.ExtTreeSet α) :
    Prop where
  layer : ∀ x, x ∈ layer ↔ Distance (fun x y => y ∈ next x) a x k
  pool : ∀ x, x ∈ pool ↔ P x ∧ ∀ j, Walk (fun x y => y ∈ next x) a j x → k < j

namespace Frontier

variable [Std.LawfulEqOrd α] {k : Nat} {layer : List α} {pool : Std.ExtTreeSet α}

/-- Drawing what the layer leads to gives the next layer. -/
theorem advance (h : Frontier next a P k layer pool) (ha : P a)
    (hP : ∀ x y, P x → y ∈ next x → P y) :
    Frontier next a P (k + 1) (draw (layer.flatMap next) pool).1
      (draw (layer.flatMap next) pool).2 := by
  have hlayer : ∀ y, y ∈ (draw (layer.flatMap next) pool).1 ↔
      Distance (fun x y => y ∈ next x) a y (k + 1) := by
    intro y
    rw [mem_draw, List.mem_flatMap]
    constructor
    · rintro ⟨⟨x, hx, hxy⟩, hy⟩
      exact ⟨.step ((h.layer x).mp hx).walk hxy, ((h.pool y).mp hy).2⟩
    · intro hy
      obtain ⟨x, hx, hxy⟩ := hy.exists_pred
      exact ⟨⟨x, (h.layer x).mpr hx, hxy⟩, (h.pool y).mpr ⟨hy.walk.preserves ha hP, hy.least⟩⟩
  refine ⟨hlayer, fun y => ?_⟩
  rw [mem_draw_left, h.pool]
  constructor
  · rintro ⟨hne, hPy, hfar⟩
    refine ⟨hPy, fun j hj => Nat.lt_of_le_of_ne (hfar j hj) ?_⟩
    -- a walk of `k + 1` steps would be a shortest one, and lead out of the layer
    rintro rfl
    exact hne (mem_draw.mp ((hlayer y).mpr ⟨hj, hfar⟩)).1
  · rintro ⟨hPy, hfar⟩
    refine ⟨fun hy => ?_, hPy, fun j hj => Nat.lt_of_succ_lt (hfar j hj)⟩
    obtain ⟨x, hx, hxy⟩ := List.mem_flatMap.mp hy
    exact Nat.lt_irrefl _ (hfar (k + 1) (.step ((h.layer x).mp hx).walk hxy))

/-- What is listed from here on is no nearer than the layer. -/
theorem le_of_mem (h : Frontier next a P k layer pool) {y : α} (hy : y ∈ explore next layer pool)
    {j : Nat} (hw : Walk (fun x y => y ∈ next x) a j y) : k ≤ j := by
  rcases mem_explore_imp hy with hy | hy
  · exact ((h.layer y).mp hy).least j hw
  · exact Nat.le_of_lt (((h.pool y).mp hy).2 j hw)

end Frontier

/-- Exploration lists nearer nodes first. -/
theorem pairwise_explore [Std.LawfulEqOrd α] {layer : List α} {pool : Std.ExtTreeSet α} (ha : P a)
    (hP : ∀ x y, P x → y ∈ next x → P y) : ∀ k, Frontier next a P k layer pool →
    (explore next layer pool).Pairwise fun x y => ∀ d e, Distance (fun x y => y ∈ next x) a x d →
      Distance (fun x y => y ∈ next x) a y e → d ≤ e := by
  fun_induction explore next layer pool with
  | case1 => exact fun _ _ => List.Pairwise.nil
  | case2 pool x xs drawn ih =>
    intro k h
    have hnext := h.advance ha hP
    -- the nodes of the layer are at distance `k`, those after it are no nearer
    have hfirst : ∀ u ∈ x :: xs, ∀ v ∈ (x :: xs) ++ explore next drawn.1 drawn.2, ∀ d e,
        Distance (fun x y => y ∈ next x) a u d → Distance (fun x y => y ∈ next x) a v e →
          d ≤ e := by
      intro u hu v hv d e hd he
      refine Nat.le_trans (hd.least k ((h.layer u).mp hu).walk) ?_
      rcases List.mem_append.mp hv with hv | hv
      · exact ((h.layer v).mp hv).least e he.walk
      · exact Nat.le_of_succ_le (hnext.le_of_mem hv he.walk)
    refine List.pairwise_append.mpr ⟨?_, ih (k + 1) hnext, fun u hu v hv => ?_⟩
    · exact List.pairwise_of_forall_mem_list fun u hu v hv =>
        hfirst u hu v (List.mem_append_left _ hv)
    · exact hfirst u hu v (List.mem_append_right _ hv)

end Exploration

/-! ## Flow graphs -/

namespace FlowGraph

/-- One block stands before another in the order. -/
def Before (g : FlowGraph) (a b : BlockId) : Prop :=
  ∃ i j, g.index? a = some i ∧ g.index? b = some j ∧ i < j

theorem find?_eq_some {g : FlowGraph} {l : Label} {b : BlockId} :
    g.find? l = some b ↔ l = (b : Label) ∧ b < g.table.size := by
  cases l with
  | ofNat n =>
    rw [find?, Option.ite_none_right_eq_some, Option.some.injEq, and_comm]
    refine ⟨?_, fun ⟨he, hlt⟩ => ?_⟩
    · rintro ⟨rfl, hlt⟩
      exact ⟨rfl, hlt⟩
    · cases Int.ofNat.inj he
      exact ⟨rfl, hlt⟩
  | negSucc n => exact ⟨nofun, nofun⟩

/-- What is not in the order has no place. -/
theorem index?_eq_none {g : FlowGraph} {l : Label} (hl : ∀ b ∈ g.order, l ≠ (b : Label)) :
    (g.find? l).bind g.index? = none := by
  rw [Option.bind_eq_none_iff]
  intro b hb
  refine List.idxOf?_eq_none_iff.mpr fun hm => ?_
  exact hl b hm (find?_eq_some.mp hb).1

theorem pairwise_before {g : FlowGraph} (hn : g.order.Nodup) : g.order.Pairwise g.Before := by
  rw [List.pairwise_iff_getElem]
  intro i j hi hj hij
  exact ⟨i, j, (index?_eq_some hn).mpr (List.getElem?_eq_getElem hi),
    (index?_eq_some hn).mpr (List.getElem?_eq_getElem hj), hij⟩

end FlowGraph

namespace Routine

/-- Control can go from one block to another: along a jump of its exit, or along the route of the
open entry. -/
inductive Goes (f : Routine) : BlockId → BlockId → Prop where
  | exit {a b : BlockId} {e : Exit Operand Label} (he : (f.block a).exit = some e)
      (hb : (b : Label) ∈ e.labels) :
      Goes f a b
  | route (hopen : (f.block entry).exit = none) : Goes f entry f.route

theorem size_table (f : Routine) : f.graph.table.size = f.blocks.size := by
  simp [graph, FlowGraph.ofTable]

/-- The successors of a block are where control can go from it. -/
theorem Closed.mem_succs_iff_goes {f : Routine} (hf : f.Closed) {a b : BlockId} :
    b ∈ f.graph.succs a ↔ f.Goes a b := by
  rw [hf.mem_succs, leads]
  constructor
  · rintro ⟨ha, hb⟩
    cases he : (f.block a).exit with
    | some e =>
      rw [he] at hb
      exact .exit he hb
    | none =>
      obtain rfl : a = entry := by
        by_contra hne
        have := hf.complete a ha hne
        simp [Block.isComplete, he] at this
      rw [he, List.mem_singleton] at hb
      rw [Int.ofNat.inj hb]
      exact .route he
  · intro h
    cases h with
    | @exit _ _ e he hb =>
      refine ⟨?_, by rw [he]; exact hb⟩
      by_contra hlt
      simp [block, Array.getD_eq_getD_getElem?, Nat.le_of_not_lt hlt] at he
    | route hopen =>
      refine ⟨Nat.lt_of_lt_of_le Nat.zero_lt_two hf.body, ?_⟩
      rw [hopen]
      exact List.mem_singleton.mpr rfl

end Routine

namespace Survey.Shows

variable {t : Survey} {g : FlowGraph} (h : t.Shows g)

include h

theorem index_eq {b : BlockId} (hb : b < g.table.size) {i : Nat} (hi : g.index? b = some i) :
    t.index b = i := by
  rw [h.index, FlowGraph.find?_eq_some.mpr ⟨rfl, hb⟩, Option.bind_some, hi]
  rfl

theorem index_lt {a b : BlockId} (ha : a < g.table.size) (hb : b < g.table.size)
    (hab : g.Before a b) : t.index a < t.index b := by
  obtain ⟨i, j, hi, hj, hij⟩ := hab
  rw [h.index_eq ha hi, h.index_eq hb hj]
  exact Int.ofNat_lt.mpr hij

end Survey.Shows

/-- The graph `g` of the routine `f` with its tables `t`, by what control can do in `f`: the
successors of every block; the order, whose first block is the entry, and which lists each block
that the entry reaches once, nearer blocks first; the places in it, and its members as a set; and
the predecessors. -/
structure BreadthFirst (f : Routine) (g : FlowGraph) (t : Survey) : Prop where
  succs : ∀ a b, b ∈ g.succs a ↔ f.Goes a b
  head : t.order.head? = some entry
  nodup : t.order.Nodup
  order : ∀ b, b ∈ t.order ↔ Relation.ReflTransGen f.Goes entry b
  reachable : ∀ l : Label, t.reachable.contains l = true ↔ ∃ b ∈ t.order, l = (b : Label)
  index : ∀ (i : Nat) (b : BlockId), t.order[i]? = some b → t.index b = i
  unreached : ∀ l : Label, (∀ b ∈ t.order, l ≠ (b : Label)) → t.index l = -1
  parent : ∀ b ∈ t.order, b ≠ entry → ∃ p ∈ t.preds b, t.index p < t.index b
  distance : ∃ dist : BlockId → Nat, (∀ b ∈ t.order, Distance f.Goes entry b (dist b)) ∧
    t.order.Pairwise fun a b => dist a ≤ dist b
  nodup_preds : ∀ b, (t.preds b).Nodup
  sorted_preds : ∀ b, (t.preds b).Pairwise fun p q : BlockId => t.index p < t.index q
  mem_preds : ∀ b p, p ∈ t.preds b ↔ Relation.ReflTransGen f.Goes entry p ∧ b ∈ g.succs p

namespace Routine.Closed

variable {f : Routine} (hf : f.Closed)

include hf

theorem succs_eq_goes : (fun a b => b ∈ f.graph.succs a) = f.Goes :=
  funext fun _ => funext fun _ => propext hf.mem_succs_iff_goes

theorem mem_order_iff_goes {b : BlockId} :
    b ∈ f.graph.order ↔ Relation.ReflTransGen f.Goes entry b := by
  rw [hf.mem_order, FlowGraph.reach_iff, hf.succs_eq_goes]

/-- The order lists nearer blocks first. -/
theorem pairwise_order : f.graph.order.Pairwise fun a b => ∀ d e, Distance f.Goes entry a d →
    Distance f.Goes entry b e → d ≤ e := by
  have h0 : entry < f.graph.table.size := by
    rw [size_table]
    exact Nat.lt_of_lt_of_le Nat.zero_lt_two hf.body
  have hstart : Frontier f.graph.succs entry (· < f.graph.table.size) 0 [entry]
      (.ofList ((List.range f.graph.table.size).erase entry)) := by
    refine ⟨fun b => ?_, fun b => ?_⟩
    · rw [List.mem_singleton]
      refine ⟨?_, fun h => by cases h.walk; rfl⟩
      rintro rfl
      exact ⟨.start, fun k _ => Nat.zero_le k⟩
    · rw [Std.ExtTreeSet.mem_ofList, List.contains_iff_mem, List.nodup_range.mem_erase_iff,
        List.mem_range, and_comm]
      refine and_congr_right fun _ => ⟨fun hne k hk => Nat.pos_of_ne_zero ?_, ?_⟩
      · rintro rfl
        cases hk
        exact hne rfl
      · rintro h rfl
        exact Nat.lt_irrefl 0 (h 0 .start)
  have key := pairwise_explore (P := (· < f.graph.table.size)) h0
    (fun a b _ (hb : b ∈ f.graph.succs a) => hf.bounded a b hb) 0 hstart
  rwa [hf.succs_eq_goes] at key

/-- The block before the last on a shortest walk to a block stands before it. -/
theorem exists_parent {b : BlockId} (hb : b ∈ f.graph.order) (hne : b ≠ entry) :
    ∃ p ∈ f.graph.preds b, f.graph.Before p b := by
  obtain ⟨d, hd⟩ := Distance.exists_of_reflTransGen (hf.mem_order_iff_goes.mp hb)
  cases d with
  | zero => cases hd.walk; exact absurd rfl hne
  | succ k =>
    obtain ⟨p, hp, hpb⟩ := hd.exists_pred
    have hpo := hf.mem_order_iff_goes.mpr hp.walk.reflTransGen
    refine ⟨p, FlowGraph.mem_preds.mpr ⟨hpo, hf.mem_succs_iff_goes.mpr hpb⟩, ?_⟩
    obtain ⟨i, hi, rfl⟩ := List.getElem_of_mem hpo
    obtain ⟨j, hj, rfl⟩ := List.getElem_of_mem hb
    refine ⟨i, j, (FlowGraph.index?_eq_some (nodup_order f)).mpr (List.getElem?_eq_getElem hi),
      (FlowGraph.index?_eq_some (nodup_order f)).mpr (List.getElem?_eq_getElem hj),
      Nat.lt_of_not_le fun hji => ?_⟩
    -- otherwise the farther block would be listed first
    have hle : k + 1 ≤ k := by
      rcases Nat.eq_or_lt_of_le hji with rfl | hji
      · exact hd.least k hp.walk
      · exact List.pairwise_iff_getElem.mp hf.pairwise_order j i hj hi hji (k + 1) k hd hp
    omega

theorem exists_distance :
    ∃ dist : BlockId → Nat, (∀ b ∈ f.graph.order, Distance f.Goes entry b (dist b)) ∧
    f.graph.order.Pairwise fun a b => dist a ≤ dist b := by
  have hex : ∀ b, ∃ d, b ∈ f.graph.order → Distance f.Goes entry b d := by
    intro b
    by_cases hb : b ∈ f.graph.order
    · exact (Distance.exists_of_reflTransGen (hf.mem_order_iff_goes.mp hb)).imp fun _ hd _ => hd
    · exact ⟨0, fun h => absurd h hb⟩
  choose dist hdist using hex
  refine ⟨dist, hdist, ?_⟩
  exact hf.pairwise_order.imp_of_mem fun ha hb h => h _ _ (hdist _ ha) (hdist _ hb)

theorem lt_table {b : BlockId} (hb : b ∈ f.graph.order) : b < f.graph.table.size := by
  rw [size_table]
  exact hf.lt_of_mem_order hb

/-- The survey of a routine ends with the tables of its graph. No block has two jumps to one target:
a branch with equal targets is one jump. -/
theorem exists_shows : ∃ t, Survey.of f.graph.table = some t ∧ t.Shows f.graph :=
  Survey.exists_shows hf.bounded hf.nodup_succs (by
    rw [size_table]
    exact Nat.lt_of_lt_of_le Nat.zero_lt_two hf.body)

/-- The tables of the graph of a routine, in every part. -/
theorem breadthFirst {t : Survey} (ht : t.Shows f.graph) : BreadthFirst f f.graph t := by
  have hnodup := nodup_order f
  have hlt : ∀ {b}, b ∈ t.order → b < f.graph.table.size := fun hb => hf.lt_table (ht.order ▸ hb)
  have hpreds : ∀ b, ∀ p ∈ t.preds b, p < f.graph.table.size := fun b p hp =>
    hf.lt_table (FlowGraph.mem_preds.mp (ht.preds b ▸ hp)).1
  refine
    { succs := fun _ _ => hf.mem_succs_iff_goes
      head := ?_
      nodup := ht.order ▸ hnodup
      order := fun b => by rw [ht.order, hf.mem_order_iff_goes]
      reachable := fun l => by rw [ht.reachable, ht.order]; exact BitSet.contains_ofList
      index := fun i b hi => ?_
      unreached := fun l hl => ?_
      parent := fun b hb hne => ?_
      distance := by rw [ht.order]; exact hf.exists_distance
      nodup_preds := fun b => ht.preds b ▸ FlowGraph.nodup_preds hnodup b
      sorted_preds := fun b => ?_
      mem_preds := fun b p => by rw [ht.preds, FlowGraph.mem_preds, hf.mem_order_iff_goes] }
  · obtain ⟨rest, hrest⟩ := FlowGraph.head_ofTable_order f.graph.table
    exact (congrArg List.head? ht.order).trans (congrArg List.head? hrest)
  · refine ht.index_eq (hlt (List.mem_of_getElem? hi)) ?_
    exact (FlowGraph.index?_eq_some hnodup).mpr (ht.order ▸ hi)
  · rw [ht.index, FlowGraph.index?_eq_none (ht.order ▸ hl)]
    rfl
  · obtain ⟨p, hp, hbefore⟩ := hf.exists_parent (ht.order ▸ hb) hne
    rw [ht.preds]
    exact ⟨p, hp, ht.index_lt (hf.lt_table (FlowGraph.mem_preds.mp hp).1) (hlt hb) hbefore⟩
  · have hsorted : (t.preds b).Pairwise f.graph.Before :=
      ht.preds b ▸ (FlowGraph.pairwise_before hnodup).filter _
    exact hsorted.imp_of_mem fun hp hq => ht.index_lt (hpreds b _ hp) (hpreds b _ hq)

end Routine.Closed

/-- The flow graph of a routine is an exact picture of where control can go, taken breadth first.
The loop that fills its tables ends, they show what the graph says of its order, and they are right
in every part. -/
theorem analyze_breadthFirst {f : Routine} {g : FlowGraph} (h : f.analyze = .ok g) :
    ∃ t, Survey.of g.table = some t ∧ t.Shows g ∧ BreadthFirst f g t := by
  have hf := Routine.closed_of_analyze h
  obtain rfl := Routine.eq_graph_of_analyze h
  obtain ⟨t, ht, hshows⟩ := hf.exists_shows
  exact ⟨t, ht, hshows, hf.breadthFirst hshows⟩

/-- A loop through blocks 1 and 2, a branch of block 3 with one target, and block 5, which nothing
leads to. -/
def windingRoutine : Routine where
  name := "winding"
  blocks := #[{}, { params := [0], exit := some (.branch (.param 0) 3 2) },
    { exit := some (.jump 1) }, { params := [0], exit := some (.branch (.param 0) 4 4) },
    { exit := some .ret }, { exit := some (.jump 4) }]
  regs := #[]
  vars := #["x"]
  route := 1

def windingGraph : FlowGraph where
  table := #[[1], [3, 2], [1], [4], [], [4]]
  order := [0, 1, 3, 2, 4]

/-- Block 2 is visited before block 4, which block 3 met first; block 4 has one entry for the
branch. -/
def windingSurvey : Survey where
  order := [0, 1, 3, 2, 4]
  reachable := .ofList [0, 1, 3, 2, 4]
  rows := #[[], [0, 2], [1], [1], [3], []]
  places := #[0, 1, 3, 2, 4, -1]

theorem analyze_breadthFirst_winding : windingRoutine.analyze = .ok windingGraph ∧
    Survey.of windingGraph.table = some windingSurvey ∧ windingSurvey.Shows windingGraph ∧
    BreadthFirst windingRoutine windingGraph windingSurvey := by
  have h : windingRoutine.analyze = .ok windingGraph := by decide +kernel
  have ht : Survey.of windingGraph.table = some windingSurvey := by decide +kernel
  obtain ⟨t, ht', hshows, hfirst⟩ := analyze_breadthFirst h
  cases ht.symm.trans ht'
  exact ⟨h, ht, hshows, hfirst⟩

end ProcCompiler
