import Mathlib.Logic.Relation
import Mathlib.Data.List.Nodup
import ProcCompiler.FlowGraph
/-!
# What a flow graph reaches

`explore` visits by layers and draws from a pool. Where every step stays inside the first layer and
the pool it visits exactly what can be reached (`mem_explore_iff`). For a flow graph whose table
leads to its own blocks only, the order is the set of blocks that the entry reaches, each once, the
entry first.

* `FlowGraph.Reach`: a path of jumps from the entry.
* `FlowGraph.mem_ofTable_order`: the order holds exactly the blocks that are reached.
* `FlowGraph.mem_preds`, `FlowGraph.nodup_preds`: the predecessors as a set without repetition.
-/
namespace ProcCompiler

section Exploration

variable {α : Type} [Ord α] [Std.TransOrd α]

/-- The first layer is visited. -/
theorem mem_explore_of_mem_layer {next : α → List α} {layer : List α} {pool : Std.ExtTreeSet α}
    {x : α} (h : x ∈ layer) : x ∈ explore next layer pool := by
  cases layer with
  | nil => cases h
  | cons a as =>
    rw [explore]
    exact List.mem_append_left _ h

variable [Std.LawfulEqOrd α]

/-- One step from a visited node into the pool leads to a visited node. -/
theorem mem_explore_next {next : α → List α} {layer : List α} {pool : Std.ExtTreeSet α} {x y : α}
    (hx : x ∈ explore next layer pool) (hy : y ∈ next x) (hp : y ∈ pool) :
    y ∈ explore next layer pool := by
  fun_induction explore next layer pool with
  | case1 => cases hx
  | case2 pool a as drawn ih =>
    apply List.mem_append_right
    by_cases hd : y ∈ (a :: as).flatMap next
    · exact mem_explore_of_mem_layer (mem_draw.mpr ⟨hd, hp⟩)
    · rcases List.mem_append.mp hx with hx | hx
      · exact absurd (List.mem_flatMap.mpr ⟨x, hx, hy⟩) hd
      · exact ih hx (mem_draw_left.mpr ⟨hd, hp⟩)

/-- What is visited can be reached from the first layer. -/
theorem reach_of_mem_explore {next : α → List α} {layer : List α} {pool : Std.ExtTreeSet α} {y : α}
    (h : y ∈ explore next layer pool) :
    ∃ x ∈ layer, Relation.ReflTransGen (fun a b => b ∈ next a) x y := by
  fun_induction explore next layer pool with
  | case1 => cases h
  | case2 pool a as drawn ih =>
    rcases List.mem_append.mp h with h | h
    · exact ⟨y, h, .refl⟩
    · obtain ⟨x, hx, hxy⟩ := ih h
      obtain ⟨w, hw, hwx⟩ := List.mem_flatMap.mp (mem_draw.mp hx).1
      exact ⟨w, hw, .head hwx hxy⟩

/-- Exploration visits exactly what can be reached, if no step leaves the first layer and the
pool. -/
theorem mem_explore_iff {next : α → List α} {layer : List α} {pool : Std.ExtTreeSet α} {y : α}
    (h : ∀ a b, (a ∈ layer ∨ a ∈ pool) → b ∈ next a → b ∈ layer ∨ b ∈ pool) :
    y ∈ explore next layer pool ↔ ∃ x ∈ layer, Relation.ReflTransGen
      (fun a b => b ∈ next a) x y := by
  refine ⟨reach_of_mem_explore, ?_⟩
  rintro ⟨x, hx, hxy⟩
  induction hxy with
  | refl => exact mem_explore_of_mem_layer hx
  | tail _ hbc ih =>
    rcases h _ _ (mem_explore_imp ih) hbc with hl | hp
    · exact mem_explore_of_mem_layer hl
    · exact mem_explore_next ih hbc hp

end Exploration

namespace FlowGraph

/-- The entry reaches a block along jumps. -/
inductive Reach (g : FlowGraph) : BlockId → Prop where
  | entry : Reach g entry
  | step {a b : BlockId} (ha : Reach g a) (hab : b ∈ g.succs a) : Reach g b

/-- Every successor in the table is a block of the table. -/
def Bounded (table : Array (List BlockId)) : Prop :=
  ∀ a, ∀ b ∈ table.getD a [], b < table.size

theorem reach_iff {g : FlowGraph} {b : BlockId} :
    g.Reach b ↔ Relation.ReflTransGen (fun a c => c ∈ g.succs a) ProcCompiler.entry b := by
  constructor
  · intro h
    induction h with
    | entry => exact .refl
    | step _ hab ih => exact .tail ih hab
  · intro h
    induction h with
    | refl => exact .entry
    | tail _ hbc ih => exact .step ih hbc

theorem mem_ofTable_order {table : Array (List BlockId)} (h : Bounded table) {b : BlockId} :
    b ∈ (ofTable table).order ↔ (ofTable table).Reach b := by
  rw [reach_iff]
  simp only [ofTable]
  rw [mem_explore_iff]
  · simp only [List.mem_singleton, exists_eq_left]
    rfl
  · intro a c _ hc
    have hlt := h a c hc
    by_cases he : c = ProcCompiler.entry
    · exact .inl (List.mem_singleton.mpr he)
    · right
      rw [Std.ExtTreeSet.mem_ofList, List.contains_iff_mem, List.mem_erase_of_ne he]
      exact List.mem_range.mpr hlt

theorem nodup_ofTable_order (table : Array (List BlockId)) : (ofTable table).order.Nodup := by
  apply nodup_explore (List.nodup_singleton _)
  intro x hx hp
  rw [List.mem_singleton.mp hx, Std.ExtTreeSet.mem_ofList, List.contains_iff_mem] at hp
  exact List.nodup_range.not_mem_erase hp

theorem head_ofTable_order (table : Array (List BlockId)) :
    ∃ rest, (ofTable table).order = ProcCompiler.entry :: rest := by
  simp only [ofTable]
  rw [explore]
  exact ⟨_, rfl⟩

/-! ## Predecessors -/

theorem mem_preds {g : FlowGraph} {p b : BlockId} :
    p ∈ g.preds b ↔ p ∈ g.order ∧ b ∈ g.succs p := by
  simp [preds]

theorem nodup_preds {g : FlowGraph} (h : g.order.Nodup) (b : BlockId) : (g.preds b).Nodup :=
  h.filter _

/-- Of fewer than two predecessors there is at most one. -/
theorem preds_unique {g : FlowGraph} {b p q : BlockId} (h : (g.preds b).length < 2)
    (hp : p ∈ g.preds b) (hq : q ∈ g.preds b) : p = q := by
  rcases hl : g.preds b with _ | ⟨x, _ | ⟨y, ys⟩⟩
  · rw [hl] at hp; cases hp
  · rw [hl, List.mem_singleton] at hp hq
    rw [hp, hq]
  · rw [hl] at h; simp only [List.length_cons] at h; omega

/-- At most one predecessor makes fewer than two. -/
theorem length_preds_lt_two {g : FlowGraph} {b : BlockId} (hn : g.order.Nodup)
    (h : ∀ p ∈ g.preds b, ∀ q ∈ g.preds b, p = q) : (g.preds b).length < 2 := by
  have hd := nodup_preds hn b
  rcases hl : g.preds b with _ | ⟨x, _ | ⟨y, ys⟩⟩
  · simp
  · simp
  · rw [hl] at h hd
    have : x = y := h x (by simp) y (by simp)
    simp [this] at hd

/-! ## Places -/

theorem getElem?_of_index? {g : FlowGraph} {b : BlockId} {i : Nat} (h : g.index? b = some i) :
    g.order[i]? = some b := by
  rw [index?, List.idxOf?, List.findIdx?_eq_some_iff_getElem] at h
  obtain ⟨hi, hb, -⟩ := h
  rw [List.getElem?_eq_getElem hi, eq_of_beq hb]

theorem index?_eq_some {g : FlowGraph} (hn : g.order.Nodup) {b : BlockId} {i : Nat} :
    g.index? b = some i ↔ g.order[i]? = some b := by
  refine ⟨getElem?_of_index?, fun h => ?_⟩
  obtain ⟨hi, rfl⟩ := List.getElem?_eq_some_iff.mp h
  rw [index?, List.idxOf?, List.findIdx?_eq_some_iff_getElem]
  refine ⟨hi, beq_self_eq_true _, fun j hj he => ?_⟩
  exact Nat.ne_of_lt hj (hn.getElem_inj_iff.mp (eq_of_beq he))

end FlowGraph

end ProcCompiler
