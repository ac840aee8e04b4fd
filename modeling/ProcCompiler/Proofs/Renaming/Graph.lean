import Mathlib.Data.Set.Function
import ProcCompiler.Proofs.Graph.Analyze
/-!
# Exploration under other names

Exploration asks for nothing but the nodes that come next and whether a node is still in the pool.
So if the nodes get other names, no two the same, it visits the same nodes in the same order. For
flow graphs: the order of a graph and the predecessors of its blocks are carried over, however many
blocks there are that nothing reaches.

* `idxOf_map_of_inj`, `eraseDups_map_of_injOn`: places and repetitions in a list.
* `draw_map`, `explore_map`: drawing and exploring under other names.
* `FlowGraph.Renamed`: two graphs with the same reached part.
* `FlowGraph.Renamed.preds`: the predecessors, in the same order.
* `Routine.Closed.graph_renamed`: blocks that lead to the same blocks make the same graph.
-/
namespace ProcCompiler

/-! ## Lists -/

/-- The place of an element is kept if no other element of the list gets its name. -/
theorem idxOf_map_of_inj {α γ : Type} [DecidableEq α] [DecidableEq γ] {φ : α → γ} {a : α} :
    ∀ {l : List α}, (∀ x ∈ l, φ x = φ a → x = a) → (l.map φ).idxOf (φ a) = l.idxOf a
  | [], _ => rfl
  | x :: l, h => by
    have hl := idxOf_map_of_inj (φ := φ) (a := a) (l := l) fun y hy => h y (by simp [hy])
    rw [List.map_cons, List.idxOf_cons, List.idxOf_cons, hl]
    by_cases hx : x = a
    · rw [hx, BEq.rfl, BEq.rfl]
    · have hφ : φ x ≠ φ a := fun he => hx (h x (by simp) he)
      rw [beq_false_of_ne hx, beq_false_of_ne hφ]

/-- Repetitions are found at the same places if no two elements get the same name. -/
theorem eraseDups_map_of_injOn {α γ : Type} [DecidableEq α] [DecidableEq γ] {φ : α → γ} :
    ∀ {l : List α}, Set.InjOn φ {x | x ∈ l} → (l.map φ).eraseDups = l.eraseDups.map φ
  | [], _ => rfl
  | a :: l, h => by
    have hfilter : (l.map φ).filter (fun y => !y == φ a) = (l.filter fun x => !x == a).map φ := by
      rw [List.filter_map]
      congr 1
      apply List.filter_congr
      intro x hx
      have hiff : φ x = φ a ↔ x = a := h.eq_iff (List.mem_cons_of_mem a hx) List.mem_cons_self
      simp only [Function.comp, Bool.beq_eq_decide_eq, hiff]
    have hrest : Set.InjOn φ {x | x ∈ l.filter fun x => !x == a} := h.mono fun x hx =>
      List.mem_cons_of_mem a (List.mem_of_mem_filter hx)
    have : (l.filter fun x => !x == a).length ≤ l.length := List.length_filter_le _ _
    rw [List.map_cons, List.eraseDups_cons, List.eraseDups_cons, List.map_cons, hfilter,
      eraseDups_map_of_injOn hrest]
termination_by l => l.length

/-! ## Exploration -/

section Exploration

variable {α γ : Type} [Ord α] [Std.TransOrd α] [Std.LawfulEqOrd α] [Ord γ] [Std.TransOrd γ]
  [Std.LawfulEqOrd γ] {φ : α → γ} {S : Set α}

/-- Drawing asks only which of the nodes are in the pool. -/
theorem draw_map (hφ : Set.InjOn φ S) {xs : List α} {pool : Std.ExtTreeSet α}
    {pool' : Std.ExtTreeSet γ} (hxs : ∀ x ∈ xs, x ∈ S) (hpool : ∀ x ∈ S, φ x ∈ pool' ↔ x ∈ pool) :
    (draw (xs.map φ) pool').1 = (draw xs pool).1.map φ := by
  induction xs generalizing pool pool' with
  | nil => rfl
  | cons x xs ih =>
    have hx : x ∈ S := hxs x (by simp)
    have hrest : ∀ y ∈ xs, y ∈ S := fun y hy => hxs y (by simp [hy])
    simp only [List.map_cons, draw, hpool x hx]
    by_cases hin : x ∈ pool
    · have herase : ∀ y ∈ S, φ y ∈ pool'.erase (φ x) ↔ y ∈ pool.erase x := by
        intro y hy
        rw [mem_erase_iff, mem_erase_iff, hpool y hy, ne_eq, hφ.eq_iff hy hx]
      simp only [if_pos hin, List.map_cons, ih hrest herase]
    · simp only [if_neg hin, ih hrest hpool]

theorem mem_draw_left_map (hφ : Set.InjOn φ S) {xs : List α} {pool : Std.ExtTreeSet α}
    {pool' : Std.ExtTreeSet γ} (hxs : ∀ x ∈ xs, x ∈ S) (hpool : ∀ x ∈ S, φ x ∈ pool' ↔ x ∈ pool)
    {y : α} (hy : y ∈ S) : φ y ∈ (draw (xs.map φ) pool').2 ↔ y ∈ (draw xs pool).2 := by
  have hmem : φ y ∈ xs.map φ ↔ y ∈ xs := by
    rw [List.mem_map]
    constructor
    · rintro ⟨x, hx, he⟩
      rwa [← hφ (hxs x hx) hy he]
    · exact fun h => ⟨y, h, rfl⟩
  rw [mem_draw_left, mem_draw_left, hmem, hpool y hy]

/-- Exploration under other names visits the same nodes in the same order. -/
theorem explore_map (hφ : Set.InjOn φ S) {next : α → List α} {next' : γ → List γ}
    (hnext : ∀ x ∈ S, next' (φ x) = (next x).map φ) (hS : ∀ x ∈ S, ∀ y ∈ next x, y ∈ S)
    {layer : List α} {pool : Std.ExtTreeSet α} (hlayer : ∀ x ∈ layer, x ∈ S) :
    ∀ {pool' : Std.ExtTreeSet γ}, (∀ x ∈ S, φ x ∈ pool' ↔ x ∈ pool) →
      explore next' (layer.map φ) pool' = (explore next layer pool).map φ := by
  fun_induction explore next layer pool with
  | case1 =>
    intro pool' _
    rw [List.map_nil, explore]
  | case2 pool x xs drawn ih =>
    intro pool' hpool
    have hstep : ∀ ys : List α, (∀ y ∈ ys, y ∈ S) →
        (ys.map φ).flatMap next' = (ys.flatMap next).map φ := by
      intro ys hys
      rw [List.flatMap_map, List.map_flatMap]
      exact List.flatMap_congr fun y hy => hnext y (hys y hy)
    have hflat : ∀ y ∈ (x :: xs).flatMap next, y ∈ S := by
      intro y hy
      obtain ⟨w, hw, hwy⟩ := List.mem_flatMap.mp hy
      exact hS w (hlayer w hw) y hwy
    rw [List.map_append, List.map_cons, explore, ← List.map_cons, hstep _ hlayer,
      draw_map hφ hflat hpool]
    congr 1
    exact ih (fun y hy => hflat y (mem_draw.mp hy).1) fun y hy =>
      mem_draw_left_map hφ hflat hpool hy

end Exploration

/-! ## Flow graphs -/

/-- The reached part of `g'` is that of `g`, the blocks under their names by `β`. -/
structure FlowGraph.Renamed (β : BlockId → BlockId) (g g' : FlowGraph) : Prop where
  inj : Set.InjOn β {b | b ∈ g.order}
  order : g'.order = g.order.map β
  succs : ∀ b ∈ g.order, g'.succs (β b) = (g.succs b).map β
  inside : ∀ b ∈ g.order, ∀ t ∈ g.succs b, t ∈ g.order

namespace FlowGraph.Renamed

variable {β : BlockId → BlockId} {g g' : FlowGraph} (h : g.Renamed β g')

include h

theorem mem_order {b : BlockId} (hb : b ∈ g.order) : β b ∈ g'.order :=
  h.order ▸ List.mem_map_of_mem hb

theorem eq_iff {b c : BlockId} (hb : b ∈ g.order) (hc : c ∈ g.order) : β b = β c ↔ b = c :=
  h.inj.eq_iff hb hc

/-- The predecessors of a block, in the same order. -/
theorem preds {t : BlockId} (ht : t ∈ g.order) : g'.preds (β t) = (g.preds t).map β := by
  rw [FlowGraph.preds, FlowGraph.preds, h.order, List.filter_map]
  congr 1
  apply List.filter_congr
  intro p hp
  rw [Bool.eq_iff_iff, Function.comp, decide_eq_true_eq, decide_eq_true_eq, h.succs p hp,
    List.mem_map]
  constructor
  · rintro ⟨c, hc, he⟩
    rwa [← h.inj (h.inside p hp c hc) ht he]
  · exact fun hc => ⟨t, hc, rfl⟩

end FlowGraph.Renamed

/-- The label of a block under its name by `β`. -/
def relabel (β : BlockId → BlockId) (l : Label) : Label := (β l.toNat : Label)

@[simp] theorem relabel_natCast (β : BlockId → BlockId) (t : BlockId) :
    relabel β (t : Label) = (β t : Label) := rfl

namespace Routine

/-- All blocks but the entry. -/
def bodyBlocks (f : Routine) : Std.ExtTreeSet BlockId :=
  .ofList ((List.range f.blocks.size).erase entry)

theorem mem_bodyBlocks {f : Routine} {b : BlockId} :
    b ∈ f.bodyBlocks ↔ b ≠ entry ∧ b < f.blocks.size := by
  rw [bodyBlocks, Std.ExtTreeSet.mem_ofList, List.contains_iff_mem, List.nodup_range.mem_erase_iff,
    List.mem_range]

/-- The order is found by drawing from the blocks of the body. -/
theorem order_graph (f : Routine) : f.graph.order = explore f.graph.succs [entry] f.bodyBlocks := by
  have hsize : f.graph.table.size = f.blocks.size := by simp [graph, FlowGraph.ofTable]
  rw [bodyBlocks, ← hsize]
  rfl

end Routine

namespace Routine.Closed

variable {β : BlockId → BlockId} {f f' : Routine}

/-- A jump of a reached block is carried over. -/
theorem reach_renamed (hf : f.Closed) (hf' : f'.Closed)
    (hentry : β ProcCompiler.entry = ProcCompiler.entry)
    (hleads : ∀ b ∈ f.graph.order, f'.leads (β b) = (f.leads b).map (relabel β)) {b : BlockId}
    (hb : f.graph.Reach b) : f'.graph.Reach (β b) := by
  induction hb with
  | entry => rw [hentry]; exact .entry
  | @step a c ha hac ih =>
    refine .step ih (hf'.mem_succs.mpr ⟨hf'.lt_of_mem_order (hf'.mem_order.mpr ih), ?_⟩)
    rw [hleads a (hf.mem_order.mpr ha)]
    exact List.mem_map.mpr ⟨c, (hf.mem_succs.mp hac).2, rfl⟩

/-- If the reached blocks lead to the same blocks under other names, then the graphs have the same
reached part. -/
theorem graph_renamed (hf : f.Closed) (hf' : f'.Closed) (hβ : Set.InjOn β {b | b ∈ f.graph.order})
    (hentry : β ProcCompiler.entry = ProcCompiler.entry)
    (hleads : ∀ b ∈ f.graph.order, f'.leads (β b) = (f.leads b).map (relabel β)) :
    f.graph.Renamed β f'.graph := by
  have hlt : ∀ b ∈ f.graph.order, β b < f'.blocks.size := fun b hb =>
    hf'.lt_of_mem_order
      (hf'.mem_order.mpr (hf.reach_renamed hf' hentry hleads (hf.mem_order.mp hb)))
  have hsuccs : ∀ b ∈ f.graph.order, f'.graph.succs (β b) = (f.graph.succs b).map β := by
    intro b hb
    rw [succs_graph (hlt b hb), succs_graph (hf.lt_of_mem_order hb), hleads b hb, List.map_map,
      List.map_map]
    rfl
  have hinside : ∀ b ∈ f.graph.order, ∀ t ∈ f.graph.succs b, t ∈ f.graph.order := fun b hb t ht =>
    hf.succ_mem_order hb ht
  have hlayer : ∀ b ∈ [ProcCompiler.entry], b ∈ f.graph.order := fun b hb =>
    List.mem_singleton.mp hb ▸ hf.entry_mem_order
  have hpool : ∀ b ∈ f.graph.order, (β b ∈ f'.bodyBlocks ↔ b ∈ f.bodyBlocks) := by
    intro b hb
    rw [mem_bodyBlocks, mem_bodyBlocks]
    refine and_congr (not_congr ?_) (iff_of_true (hlt b hb) (hf.lt_of_mem_order hb))
    conv_lhs => rw [← hentry]
    exact hβ.eq_iff hb hf.entry_mem_order
  have key := explore_map hβ hsuccs hinside hlayer hpool
  rw [List.map_singleton, hentry, ← order_graph, ← order_graph] at key
  exact ⟨hβ, key, hsuccs, hinside⟩

end Routine.Closed

end ProcCompiler
