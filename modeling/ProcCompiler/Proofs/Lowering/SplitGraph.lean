import Mathlib.Data.Set.Function
import ProcCompiler.Proofs.Lowering.Joins
/-!
# The flow graph with split joins

In the graph after the pass a jump into a join goes through the block of its edge, and every other
jump is as before. So the old blocks that are reached stay the same, a join is reached from the
blocks of its edges only, and the block of an edge from its source only.

* `SplitOf`: the routine after the pass.
* `SplitOf.closed'`: it is closed again.
* `SplitOf.mem_succs_old`, `SplitOf.succs_edge`: the jumps of the new graph.
* `SplitOf.mem_order_old`, `SplitOf.edge_mem_order`: the blocks that are reached.
* `SplitOf.mem_preds_other`, `SplitOf.mem_preds_edge`: the predecessors outside joins.
-/
namespace ProcCompiler

theorem Exit.mem_labels {ρ ℓ : Type} [DecidableEq ℓ] {e : Exit ρ ℓ} {l : ℓ} :
    l ∈ e.labels ↔ match e with
      | .jump t => l = t
      | .branch _ t u => l = t ∨ l = u
      | .ret => False := by
  cases e with
  | jump t => simp [labels]
  | branch c t u =>
    simp only [labels]
    split
    · subst ‹t = u›; simp
    · simp
  | ret => simp [labels]

theorem Exit.mem_labels_mapLabel {ρ ℓ ℓ' : Type} [DecidableEq ℓ] [DecidableEq ℓ'] {e : Exit ρ ℓ}
    {f : ℓ → ℓ'} {l : ℓ'} : l ∈ (e.mapLabel f).labels ↔ ∃ k ∈ e.labels, l = f k := by
  simp only [mem_labels]
  cases e with
  | jump t => simp [mapLabel]
  | branch c t u => simp [mapLabel]
  | ret => simp [mapLabel]

/-- A branch lists a target once, so its labels are carried over if no two of them get the same
name. -/
theorem Exit.labels_mapLabel {ρ ℓ ℓ' : Type} [DecidableEq ℓ] [DecidableEq ℓ'] {f : ℓ → ℓ'}
    {e : Exit ρ ℓ} (h : Set.InjOn f {l | l ∈ e.labels}) :
    (e.mapLabel f).labels = e.labels.map f := by
  have hmem := fun l => Exit.mem_labels (e := e) (l := l)
  cases e with
  | jump t => rfl
  | branch c t u =>
    have hiff : f t = f u ↔ t = u := h.eq_iff ((hmem t).mpr (.inl rfl)) ((hmem u).mpr (.inr rfl))
    simp only [mapLabel, labels, hiff]
    split <;> rfl
  | ret => rfl

namespace Routine

/-- The edges into joins. -/
def edges (f : Routine) (n : Needs) : List Edge := f.graph.joinEdges n f.graph.order

/-- What the joins need. -/
def sites (f : Routine) (n : Needs) : List Site := f.graph.joinSites n f.graph.order

/-- The register that all edges into a join share for a variable. -/
def shared (f : Routine) (n : Needs) (t : BlockId) (v : Var) : Reg :=
  sharedReg f.regs.size (f.sites n) t v

/-- The block of a split edge. -/
def edgeId (f : Routine) (n : Needs) (e : Edge) : BlockId := f.blocks.size + (f.edges n).idxOf e

/-- Where a jump from `b` to `t` leads once the joins are split. -/
def via (f : Routine) (n : Needs) (b t : BlockId) : BlockId :=
  if ⟨b, t⟩ ∈ f.edges n then f.edgeId n ⟨b, t⟩ else t

/-- The same for a label. -/
def viaLabel (f : Routine) (n : Needs) (b : BlockId) (l : Label) : Label :=
  reroute f.blocks.size (f.edges n) b l

end Routine

/-- Where the exit of a block leads, if it has one. -/
def Block.exitLabels (b : Block) : Option (List Label) := b.exit.map Exit.labels

theorem Routine.leads_eq (f : Routine) (b : BlockId) :
    f.leads b = (f.block b).exitLabels.getD [(f.route : Label)] := by
  unfold leads Block.exitLabels
  cases (f.block b).exit <;> rfl

theorem Block.exitLabels_receive (b : Block) (v : Var) (r : Reg) :
    (b.receive v r).exitLabels = b.exitLabels := by
  simp only [receive, fill, exitLabels, mapRead]
  split
  · simp only [Option.map_map]
    congr 1
    funext e
    simp
  · rfl

@[simp] theorem Block.exitLabels_receiveAll :
    ∀ (arrivals : List (Var × Reg)) (b : Block), (b.receiveAll arrivals).exitLabels = b.exitLabels
  | [], _ => rfl
  | (v, r) :: arrivals, b => by
    show ((b.receive v r).receiveAll arrivals).exitLabels = _
    rw [exitLabels_receiveAll arrivals, exitLabels_receive]

/-- `f'` is `f` with its joins split, for the needs `n`. -/
structure SplitOf (f : Routine) (n : Needs) (f' : Routine) : Prop where
  closed : f.Closed
  needs : f.needs f.graph = .ok n
  split : Split f n (f.edges n) (f.sites n) (f.graph.order.filter (f.graph.IsJoin n)) f'

theorem idxOf?_of_mem {α : Type} [DecidableEq α] {l : List α} {a : α} (h : a ∈ l) :
    l.idxOf? a = some (l.idxOf a) := by
  cases hi : l.idxOf? a with
  | none => exact absurd h (List.idxOf?_eq_none_iff.mp hi)
  | some i => rw [List.idxOf_eq_getD_idxOf?, hi]; rfl

/-- What is listed of some blocks, block by block, is listed once. -/
theorem nodup_flatMap_blocks {α β : Type} {ts : List BlockId} (hts : ts.Nodup) {p : BlockId → Prop}
    [DecidablePred p] {as : BlockId → List α} (has : ∀ t, (as t).Nodup) {c : BlockId → α → β}
    (hc : ∀ t u x y, c t x = c u y → t = u ∧ x = y) :
    (ts.flatMap fun t => if p t then (as t).map (c t) else []).Nodup := by
  rw [List.nodup_flatMap]
  constructor
  · intro t _
    split
    · exact (has t).map fun x y hxy => (hc t t x y hxy).2
    · exact List.nodup_nil
  · refine hts.imp fun {t u} hne => ?_
    intro e he hu
    simp only at he hu
    split at he
    · split at hu
      · obtain ⟨x, -, rfl⟩ := List.mem_map.mp he
        obtain ⟨y, -, hy⟩ := List.mem_map.mp hu
        exact hne (hc u t y x hy).1.symm
      · cases hu
    · cases he

theorem nodup_edges (f : Routine) (n : Needs) : (f.edges n).Nodup :=
  nodup_flatMap_blocks (Routine.nodup_order f) (FlowGraph.nodup_preds (Routine.nodup_order f))
    fun _ _ _ _ h =>
    (Edge.mk.inj h).symm

theorem nodup_joinSites (f : Routine) {n : Needs} (hn : ∀ b, (n.of b).Nodup) : (f.sites n).Nodup :=
  nodup_flatMap_blocks (Routine.nodup_order f) hn fun _ _ _ _ h => Site.mk.inj h

theorem viaLabel_natCast (f : Routine) (n : Needs) (b t : BlockId) :
    f.viaLabel n b (t : Label) = (f.via n b t : Label) := by
  unfold Routine.via Routine.viaLabel
  split
  · rename_i he
    unfold reroute
    rw [splitIndex?_natCast, idxOf?_of_mem he]
    rfl
  · exact reroute_of_not_mem ‹_›

theorem le_edgeId (f : Routine) (n : Needs) (e : Edge) : f.blocks.size ≤ f.edgeId n e :=
  Nat.le_add_right _ _

theorem edgeId_inj {f : Routine} {n : Needs} {e e' : Edge} (he : e ∈ f.edges n)
    (heq : f.edgeId n e = f.edgeId n e') : e = e' :=
  (List.idxOf_inj he).mp (Nat.add_left_cancel heq)

/-- No two jumps of a block are sent to the same place. -/
theorem Routine.via_inj {f : Routine} {n : Needs} {b t u : BlockId} (ht : t < f.blocks.size)
    (hu : u < f.blocks.size) (heq : f.via n b t = f.via n b u) : t = u := by
  have hfar : ∀ (e : Edge) {x : BlockId}, x < f.blocks.size → f.edgeId n e ≠ x := fun e x hx he =>
    Nat.not_lt.mpr (le_edgeId f n e) (he ▸ hx)
  unfold Routine.via at heq
  split at heq <;> rename_i ht' <;> split at heq
  · exact (Edge.mk.inj (edgeId_inj ht' heq)).2
  · exact absurd heq (hfar _ hu)
  · exact absurd heq.symm (hfar _ ht)
  · exact heq

/-- Nothing leads to the entry, so it is no join. -/
theorem Routine.Closed.entry_not_join {f : Routine} (hf : f.Closed) {n : Needs} :
    ¬ f.graph.IsJoin n entry := by
  rintro ⟨hp, -⟩
  rw [hf.preds_entry] at hp
  simp at hp

namespace SplitOf

variable {f f' : Routine} {n : Needs} (h : SplitOf f n f')

include h

theorem isJoin_mem_order {t : BlockId} (hj : f.graph.IsJoin n t) : t ∈ f.graph.order := by
  obtain ⟨v, hv⟩ := List.exists_mem_of_ne_nil _ hj.2
  exact ((Routine.mem_of_iff h.needs).mp hv).mem_order

theorem mem_edges {e : Edge} :
    e ∈ f.edges n ↔ f.graph.IsJoin n e.target ∧ e.source ∈ f.graph.preds e.target := by
  rw [Routine.edges, FlowGraph.mem_joinEdges]
  constructor
  · rintro ⟨-, hj, hp⟩; exact ⟨hj, hp⟩
  · rintro ⟨hj, hp⟩; exact ⟨h.isJoin_mem_order hj, hj, hp⟩

/-- The ends of a split edge are old blocks. -/
theorem edge_lt {e : Edge} (he : e ∈ f.edges n) :
    e.source < f.blocks.size ∧ e.target < f.blocks.size := by
  obtain ⟨hj, hp⟩ := h.mem_edges.mp he
  exact ⟨h.closed.lt_of_mem_order (FlowGraph.mem_preds.mp hp).1,
    h.closed.lt_of_mem_order (h.isJoin_mem_order hj)⟩

theorem size : f'.blocks.size = f.blocks.size + (f.edges n).length := h.split.size

theorem edgeId_lt {e : Edge} (he : e ∈ f.edges n) : f.edgeId n e < f'.blocks.size := by
  rw [h.size]
  exact Nat.add_lt_add_left (List.idxOf_lt_length_iff.mpr he) _

theorem old_lt {b : BlockId} (hb : b < f.blocks.size) : b < f'.blocks.size := by
  rw [h.size]; exact Nat.lt_add_right _ hb

/-- A block is an old one or the block of an edge. -/
theorem old_or_edge {b : BlockId} (hb : b < f'.blocks.size) :
    b < f.blocks.size ∨ ∃ e ∈ f.edges n, b = f.edgeId n e := by
  rw [h.size] at hb
  by_cases ho : b < f.blocks.size
  · exact .inl ho
  · right
    obtain ⟨i, rfl⟩ := Nat.exists_eq_add_of_le (Nat.le_of_not_lt ho)
    have hi : i < (f.edges n).length := Nat.lt_of_add_lt_add_left hb
    exact ⟨_, List.getElem_mem hi, by rw [Routine.edgeId, (nodup_edges f n).idxOf_getElem i hi]⟩

theorem block_edge {e : Edge} (he : e ∈ f.edges n) : f'.block (f.edgeId n e) =
    edgeBlock (n.of e.target) ((n.of e.target).map (f.shared n e.target)) e.target := by
  apply h.split.new
  rw [List.getElem?_eq_getElem (List.idxOf_lt_length_iff.mpr he), List.getElem_idxOf]

theorem mem_joined {b : BlockId} :
    b ∈ f.graph.order.filter (f.graph.IsJoin n) ↔ f.graph.IsJoin n b := by
  rw [List.mem_filter, decide_eq_true_eq]
  exact ⟨fun hb => hb.2, fun hb => ⟨h.isJoin_mem_order hb, hb⟩⟩

/-- An old block that is no join changes in its jumps only. -/
theorem block_other {b : BlockId} (hb : b < f.blocks.size) (hj : ¬ f.graph.IsJoin n b) :
    f'.block b = (f.block b).mapLabel (f.viaLabel n b) := by
  rw [h.split.old b hb, if_neg fun hm => hj (h.mem_joined.mp hm)]
  rfl

/-- A join receives its shared registers. -/
theorem block_join {b : BlockId} (hj : f.graph.IsJoin n b) :
    f'.block b = ((f.block b).mapLabel (f.viaLabel n b)).receiveAll
      ((n.of b).zip ((n.of b).map (f.shared n b))) := by
  have hb := h.closed.lt_of_mem_order (h.isJoin_mem_order hj)
  rw [h.split.old b hb, if_pos (h.mem_joined.mpr hj), Block.receiveAll_mapLabel]
  rfl

/-! ## Jumps -/

theorem entry_not_join : ¬ f.graph.IsJoin n entry := h.closed.entry_not_join

theorem entry_lt : entry < f.blocks.size := Nat.lt_of_lt_of_le Nat.zero_lt_two h.closed.body

theorem isComplete_old {b : BlockId} (hb : b < f.blocks.size) :
    (f'.block b).isComplete = (f.block b).isComplete := by
  by_cases hj : f.graph.IsJoin n b
  · rw [h.block_join hj]; simp
  · rw [h.block_other hb hj]; simp

theorem exitLabels_old {b : BlockId} (hb : b < f.blocks.size) :
    (f'.block b).exitLabels = ((f.block b).mapLabel (f.viaLabel n b)).exitLabels := by
  by_cases hj : f.graph.IsJoin n b
  · rw [h.block_join hj]; simp
  · rw [h.block_other hb hj]

/-- The jumps of an old block, in order. -/
theorem leads_old {b : BlockId} (hb : b < f.blocks.size) :
    f'.leads b = (f.leads b).map (f.viaLabel n b) := by
  rw [Routine.leads_eq, h.exitLabels_old hb]
  unfold Block.exitLabels Block.mapLabel
  cases he : (f.block b).exit with
  | none =>
    obtain rfl : b = entry := by
      by_contra hne
      have := h.closed.complete b hb hne
      simp [Block.isComplete, he] at this
    have hr := h.split.route
    rw [if_neg (by simp [Block.isComplete, he])] at hr
    simp only [Option.map_none, Option.getD_none, Routine.leads, he, List.map_singleton, hr,
      Routine.viaLabel]
  | some e =>
    have hinj : Set.InjOn (f.viaLabel n b) {l | l ∈ e.labels} := by
      intro l hl k hk heq
      obtain ⟨t, rfl, -, ht⟩ := h.closed.target b hb l (by simp only [Routine.leads, he]; exact hl)
      obtain ⟨u, rfl, -, hu⟩ := h.closed.target b hb k (by simp only [Routine.leads, he]; exact hk)
      rw [viaLabel_natCast, viaLabel_natCast] at heq
      rw [Routine.via_inj ht hu (Int.ofNat.inj heq)]
    simp only [Option.map_some, Option.getD_some, Routine.leads, he, Exit.labels_mapLabel hinj]

theorem mem_leads_old {b : BlockId} (hb : b < f.blocks.size) {l : Label} :
    l ∈ f'.leads b ↔ ∃ k ∈ f.leads b, l = f.viaLabel n b k := by
  simp only [h.leads_old hb, List.mem_map, eq_comm]

theorem leads_edge {e : Edge} (he : e ∈ f.edges n) :
    f'.leads (f.edgeId n e) = [(e.target : Label)] := by
  unfold Routine.leads
  rw [h.block_edge he]
  rfl

/-- The jumps of an old block, by the blocks they lead to. -/
theorem mem_leads_old_natCast {b c : BlockId} (hb : b < f.blocks.size) :
    (c : Label) ∈ f'.leads b ↔ ∃ t ∈ f.graph.succs b, c = f.via n b t := by
  rw [h.mem_leads_old hb]
  constructor
  · rintro ⟨k, hk, hc⟩
    obtain ⟨t, rfl, -, -⟩ := h.closed.target b hb k hk
    rw [viaLabel_natCast] at hc
    exact ⟨t, h.closed.mem_succs.mpr ⟨hb, hk⟩, Int.ofNat.inj hc⟩
  · rintro ⟨t, ht, rfl⟩
    exact ⟨t, (h.closed.mem_succs.mp ht).2, (viaLabel_natCast f n b t).symm⟩

theorem via_lt {b t : BlockId} (ht : t < f.blocks.size) : f.via n b t < f'.blocks.size := by
  unfold Routine.via
  split
  · exact h.edgeId_lt ‹_›
  · exact h.old_lt ht

theorem via_ne_entry {b t : BlockId} (ht : t ≠ entry) : f.via n b t ≠ entry := by
  unfold Routine.via
  split
  · exact Nat.ne_of_gt (Nat.lt_of_lt_of_le h.entry_lt (le_edgeId f n _))
  · exact ht

/-- The routine with split joins is closed. -/
theorem closed' : f'.Closed where
  body := Nat.le_trans h.closed.body (by rw [h.size]; exact Nat.le_add_right _ _)
  complete b hb hne := by
    rcases h.old_or_edge hb with ho | ⟨e, he, rfl⟩
    · rw [h.isComplete_old ho]; exact h.closed.complete b ho hne
    · rw [h.block_edge he]; rfl
  target b hb l hl := by
    rcases h.old_or_edge hb with ho | ⟨e, he, rfl⟩
    · obtain ⟨k, hk, rfl⟩ := (h.mem_leads_old ho).mp hl
      obtain ⟨t, rfl, hne, hlt⟩ := h.closed.target b ho k hk
      exact ⟨f.via n b t, viaLabel_natCast f n b t, h.via_ne_entry hne, h.via_lt hlt⟩
    · rw [h.leads_edge he, List.mem_singleton] at hl
      have ht := (h.edge_lt he).2
      obtain ⟨hne, -⟩ := h.closed.succ_mem (FlowGraph.mem_preds.mp (h.mem_edges.mp he).2).2
      exact ⟨e.target, hl, hne, h.old_lt ht⟩

theorem mem_succs_old {b c : BlockId} (hb : b < f.blocks.size) :
    c ∈ f'.graph.succs b ↔ ∃ t ∈ f.graph.succs b, c = f.via n b t := by
  rw [h.closed'.mem_succs, h.mem_leads_old_natCast hb]
  exact ⟨fun hc => hc.2, fun hc => ⟨h.old_lt hb, hc⟩⟩

theorem succs_edge {e : Edge} (he : e ∈ f.edges n) :
    f'.graph.succs (f.edgeId n e) = [e.target] := by
  rw [Routine.succs_graph (h.edgeId_lt he), h.leads_edge he]
  rfl

/-! ## Reached blocks -/

/-- A jump of the old graph is a jump, or two through the edge's block, of the new one. -/
theorem reach_succ {a t : BlockId} (ha : f'.graph.Reach a) (hlt : a < f.blocks.size)
    (hat : t ∈ f.graph.succs a) : f'.graph.Reach (f.via n a t) ∧ f'.graph.Reach t := by
  have hvia : f'.graph.Reach (f.via n a t) := .step ha ((h.mem_succs_old hlt).mpr ⟨t, hat, rfl⟩)
  refine ⟨hvia, ?_⟩
  unfold Routine.via at hvia
  split at hvia
  · rename_i he
    exact .step hvia (by rw [h.succs_edge he]; simp)
  · exact hvia

/-- The old blocks that are reached stay the same, and the block of an edge is reached with its
source. -/
theorem reach_iff {b : BlockId} :
    f'.graph.Reach b ↔ (b < f.blocks.size ∧ f.graph.Reach b) ∨
      ∃ e ∈ f.edges n, b = f.edgeId n e := by
  constructor
  · intro hb
    induction hb with
    | entry => exact .inl ⟨h.entry_lt, .entry⟩
    | @step a c _ hac ih =>
      rcases ih with ⟨hlt, ha⟩ | ⟨e, he, rfl⟩
      · obtain ⟨t, ht, rfl⟩ := (h.mem_succs_old hlt).mp hac
        unfold Routine.via
        split
        · exact .inr ⟨_, ‹_›, rfl⟩
        · exact .inl ⟨(h.closed.succ_mem ht).2, .step ha ht⟩
      · rw [h.succs_edge he, List.mem_singleton] at hac
        subst hac
        exact .inl ⟨(h.edge_lt he).2,
          h.closed.mem_order.mp (h.isJoin_mem_order (h.mem_edges.mp he).1)⟩
  · have old : ∀ {b}, f.graph.Reach b → f'.graph.Reach b := by
      intro b hb
      induction hb with
      | entry => exact .entry
      | step _ hac ih => exact (h.reach_succ ih (h.closed.mem_succs.mp hac).1 hac).2
    rintro (⟨-, hb⟩ | ⟨e, he, rfl⟩)
    · exact old hb
    · obtain ⟨ho, hs⟩ := FlowGraph.mem_preds.mp (h.mem_edges.mp he).2
      have := (h.reach_succ (old (h.closed.mem_order.mp ho)) (h.edge_lt he).1 hs).1
      unfold Routine.via at this
      rwa [if_pos he] at this

theorem mem_order_old {b : BlockId} (hb : b < f.blocks.size) :
    b ∈ f'.graph.order ↔ b ∈ f.graph.order := by
  rw [h.closed'.mem_order, h.reach_iff, h.closed.mem_order]
  constructor
  · rintro (⟨-, hr⟩ | ⟨e, -, rfl⟩)
    · exact hr
    · exact absurd hb (Nat.not_lt.mpr (le_edgeId f n e))
  · exact fun hr => .inl ⟨hb, hr⟩

theorem edge_mem_order {e : Edge} (he : e ∈ f.edges n) : f.edgeId n e ∈ f'.graph.order :=
  h.closed'.mem_order.mpr (h.reach_iff.mpr (.inr ⟨e, he, rfl⟩))

/-! ## Predecessors -/

/-- The block of an edge is reached from the source of the edge only. -/
theorem mem_preds_edge {e : Edge} (he : e ∈ f.edges n) {p : BlockId} :
    p ∈ f'.graph.preds (f.edgeId n e) ↔ p = e.source := by
  rw [FlowGraph.mem_preds]
  constructor
  · rintro ⟨hp, hs⟩
    rcases h.old_or_edge (h.closed'.lt_of_mem_order hp) with ho | ⟨x, hx, rfl⟩
    · obtain ⟨t, ht, heq⟩ := (h.mem_succs_old ho).mp hs
      unfold Routine.via at heq
      split at heq
      · have := edgeId_inj he heq
        rw [this]
      · exact absurd (h.closed.succ_mem ht).2
          (by rw [← heq]; exact Nat.not_lt.mpr (le_edgeId f n e))
    · rw [h.succs_edge hx, List.mem_singleton] at hs
      exact absurd (h.edge_lt hx).2 (by rw [← hs]; exact Nat.not_lt.mpr (le_edgeId f n e))
  · rintro rfl
    obtain ⟨hj, hp⟩ := h.mem_edges.mp he
    obtain ⟨ho, hs⟩ := FlowGraph.mem_preds.mp hp
    refine ⟨(h.mem_order_old (h.edge_lt he).1).mpr ho,
      (h.mem_succs_old (h.edge_lt he).1).mpr ⟨_, hs, ?_⟩⟩
    unfold Routine.via
    rw [if_pos he]

/-- An old block that is no join keeps its predecessors. -/
theorem mem_preds_other {b : BlockId} (hb : b < f.blocks.size) (hj : ¬ f.graph.IsJoin n b)
    {p : BlockId} :
    p ∈ f'.graph.preds b ↔ p ∈ f.graph.preds b := by
  rw [FlowGraph.mem_preds, FlowGraph.mem_preds]
  have hvia : ∀ a, f.via n a b = b := by
    intro a
    unfold Routine.via
    rw [if_neg fun he => hj (h.mem_edges.mp he).1]
  constructor
  · rintro ⟨hp, hs⟩
    rcases h.old_or_edge (h.closed'.lt_of_mem_order hp) with ho | ⟨x, hx, rfl⟩
    · obtain ⟨t, ht, heq⟩ := (h.mem_succs_old ho).mp hs
      refine ⟨(h.mem_order_old ho).mp hp, ?_⟩
      unfold Routine.via at heq
      split at heq
      · exact absurd hb (by rw [heq]; exact Nat.not_lt.mpr (le_edgeId f n _))
      · rw [heq]; exact ht
    · rw [h.succs_edge hx, List.mem_singleton] at hs
      subst hs
      exact absurd (h.mem_edges.mp hx).1 hj
  · rintro ⟨hp, hs⟩
    have ho := h.closed.lt_of_mem_order hp
    exact ⟨(h.mem_order_old ho).mpr hp, (h.mem_succs_old ho).mpr ⟨b, hs, (hvia p).symm⟩⟩

/-- A join is reached from the blocks of its edges only. -/
theorem mem_preds_join {b : BlockId} (hj : f.graph.IsJoin n b) {p : BlockId} :
    p ∈ f'.graph.preds b ↔ ∃ q ∈ f.graph.preds b, p = f.edgeId n ⟨q, b⟩ := by
  have hb := h.closed.lt_of_mem_order (h.isJoin_mem_order hj)
  rw [FlowGraph.mem_preds]
  constructor
  · rintro ⟨hp, hs⟩
    rcases h.old_or_edge (h.closed'.lt_of_mem_order hp) with ho | ⟨x, hx, rfl⟩
    · obtain ⟨t, ht, heq⟩ := (h.mem_succs_old ho).mp hs
      unfold Routine.via at heq
      split at heq
      · exact absurd hb (by rw [heq]; exact Nat.not_lt.mpr (le_edgeId f n _))
      · rename_i hne
        subst heq
        exact absurd
          (h.mem_edges.mpr ⟨hj, FlowGraph.mem_preds.mpr ⟨(h.mem_order_old ho).mp hp, ht⟩⟩) hne
    · rw [h.succs_edge hx, List.mem_singleton] at hs
      subst hs
      exact ⟨x.source, (h.mem_edges.mp hx).2, rfl⟩
  · rintro ⟨q, hq, rfl⟩
    have he : (⟨q, b⟩ : Edge) ∈ f.edges n := h.mem_edges.mpr ⟨hj, hq⟩
    exact ⟨h.edge_mem_order he, by rw [h.succs_edge he]; simp⟩

end SplitOf

end ProcCompiler
