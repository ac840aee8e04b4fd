import ProcCompiler.Proofs.Graph.Reach
import ProcCompiler.Proofs.Outcome
/-!
# Which routines have a flow graph

A routine is closed if it has a body, every block but the entry has an exit, and every jump leads to
a block of the routine other than the entry. `analyze` succeeds on exactly the closed routines, and
the graph it finds is `Routine.graph`.

* `analyze_eq`, `closed_of_analyze`, `eq_graph_of_analyze`: `analyze` and `Closed` agree.
* `mem_succs`: the successors of a block are the blocks that its labels name.
* `mem_order`, `lt_of_mem_order`: the order holds exactly the reached blocks, all of the routine.
-/
namespace ProcCompiler

theorem Exit.nodup_labels {ρ ℓ : Type} [DecidableEq ℓ] (e : Exit ρ ℓ) : e.labels.Nodup := by
  cases e with
  | jump target => exact List.nodup_singleton _
  | branch cond taken other =>
    show (if taken = other then [taken] else [taken, other]).Nodup
    split
    · exact List.nodup_singleton _
    · rename_i hne
      simpa using hne
  | ret => exact List.nodup_nil

namespace Routine

/-- The labels that a block leads to; the open entry leads to the route. -/
def leads (f : Routine) (b : BlockId) : List Label :=
  match (f.block b).exit with
  | some e => e.labels
  | none => [f.route]

/-- Every block but the entry has an exit, and every jump leads to a block other than the entry. -/
structure Closed (f : Routine) : Prop where
  body : 2 ≤ f.blocks.size
  complete : ∀ b < f.blocks.size, b ≠ entry → (f.block b).isComplete
  target : ∀ b < f.blocks.size, ∀ l ∈ f.leads b, ∃ t : BlockId, l = t ∧ t ≠ entry ∧
    t < f.blocks.size

/-- The flow graph of a closed routine. -/
def graph (f : Routine) : FlowGraph :=
  .ofTable ((List.range f.blocks.size).map fun b => (f.leads b).map Int.toNat).toArray

/-! ## Labels and targets -/

theorem labels_eq {f : Routine} {b : BlockId} (h : b = entry ∨ (f.block b).isComplete) :
    f.labels b = .ok (f.leads b) := by
  unfold labels leads
  cases he : (f.block b).exit with
  | some e => rfl
  | none =>
    rcases h with rfl | h
    · rfl
    · simp [Block.isComplete, he] at h

theorem find?_natCast {f : Routine} {t : BlockId} (h : t < f.blocks.size) :
    f.find? (t : Label) = some t := if_pos h

theorem find?_eq_some {f : Routine} {l : Label} {t : BlockId} :
    f.find? l = some t ↔ l = t ∧ t < f.blocks.size := by
  cases l with
  | ofNat n =>
    simp only [find?]
    constructor
    · intro h
      split at h
      · cases h; exact ⟨rfl, ‹_›⟩
      · cases h
    · rintro ⟨h, hlt⟩
      have : n = t := Int.ofNat.inj h
      rw [this, if_pos hlt]
  | negSucc n =>
    simp only [find?]
    constructor
    · intro h; cases h
    · rintro ⟨h, -⟩; cases h

theorem target_eq {f : Routine} {b t : BlockId} (ht : t ≠ entry) (hlt : t < f.blocks.size) :
    f.target b (t : Label) = .ok t := by
  unfold target
  rw [find?_natCast hlt]
  exact if_neg ht

theorem target_ok {f : Routine} {b t : BlockId} {l : Label} (h : f.target b l = .ok t) :
    l = t ∧ t ≠ entry ∧ t < f.blocks.size := by
  unfold target at h
  split at h
  · rename_i u hu
    split at h
    · cases h
    · rename_i hne
      cases h
      obtain ⟨rfl, hlt⟩ := find?_eq_some.mp hu
      exact ⟨rfl, hne, hlt⟩
  · cases h

theorem Closed.successors_eq {f : Routine} (hf : f.Closed) {b : BlockId} (hb : b < f.blocks.size) :
    f.successors b = .ok ((f.leads b).map Int.toNat) := by
  have hl : f.labels b = .ok (f.leads b) := by
    apply labels_eq
    by_cases he : b = entry
    · exact .inl he
    · exact .inr (hf.complete b hb he)
  unfold successors
  rw [hl]
  apply mapM_eq_ok
  intro l hlm
  obtain ⟨t, rfl, hne, hlt⟩ := hf.target b hb l hlm
  exact target_eq hne hlt

/-- A closed routine has a flow graph. -/
theorem Closed.analyze_eq {f : Routine} (hf : f.Closed) : f.analyze = .ok f.graph := by
  have hb := hf.body
  unfold analyze
  rw [if_neg (by omega), mapM_eq_ok fun b hb => hf.successors_eq (List.mem_range.mp hb)]
  rfl

/-- Only a closed routine has a flow graph. -/
theorem closed_of_analyze {f : Routine} {g : FlowGraph} (h : f.analyze = .ok g) : f.Closed := by
  unfold analyze at h
  split at h
  · cases h
  · rename_i hb
    cases hm : (List.range f.blocks.size).mapM f.successors with
    | error e => rw [hm] at h; cases h
    | ok table =>
      have key : ∀ b < f.blocks.size, ∃ ts, f.successors b = .ok ts := fun b hb =>
        let ⟨ts, _, hts⟩ := ok_of_mapM hm b (List.mem_range.mpr hb)
        ⟨ts, hts⟩
      have hcomplete : ∀ b < f.blocks.size, b = entry ∨ (f.block b).isComplete := by
        intro b hb
        by_cases he : b = entry
        · exact .inl he
        · right
          obtain ⟨ts, hts⟩ := key b hb
          cases hx : (f.block b).exit with
          | some e => simp [Block.isComplete, hx]
          | none => simp [successors, labels, hx, he, bind, Except.bind] at hts
      refine ⟨by omega, fun b hb he => (hcomplete b hb).resolve_left he, fun b hb l hl => ?_⟩
      obtain ⟨ts, hts⟩ := key b hb
      unfold successors at hts
      rw [labels_eq (hcomplete b hb)] at hts
      obtain ⟨t, -, ht⟩ := ok_of_mapM hts l hl
      exact ⟨t, target_ok ht⟩

/-- A graph that was found is the graph of the routine. -/
theorem eq_graph_of_analyze {f : Routine} {g : FlowGraph} (h : f.analyze = .ok g) : g = f.graph :=
  Except.ok.inj (h.symm.trans (closed_of_analyze h).analyze_eq)

/-! ## The graph of a closed routine -/

theorem succs_graph {f : Routine} {b : BlockId} (hb : b < f.blocks.size) :
    f.graph.succs b = (f.leads b).map Int.toNat := by
  simp [graph, FlowGraph.succs, FlowGraph.ofTable, Array.getD_eq_getD_getElem?, hb]

theorem succs_graph_out {f : Routine} {b : BlockId} (hb : f.blocks.size ≤ b) :
    f.graph.succs b = [] := by
  simp [graph, FlowGraph.succs, FlowGraph.ofTable, Array.getD_eq_getD_getElem?, hb]

/-- The successors of a block are the blocks that its labels name. -/
theorem Closed.mem_succs {f : Routine} (hf : f.Closed) {b c : BlockId} :
    c ∈ f.graph.succs b ↔ b < f.blocks.size ∧ (c : Label) ∈ f.leads b := by
  by_cases hb : b < f.blocks.size
  · rw [succs_graph hb, List.mem_map]
    constructor
    · rintro ⟨l, hl, rfl⟩
      obtain ⟨t, rfl, -, -⟩ := hf.target b hb l hl
      exact ⟨hb, hl⟩
    · rintro ⟨-, hc⟩
      exact ⟨_, hc, rfl⟩
  · rw [succs_graph_out (Nat.le_of_not_lt hb)]
    constructor
    · intro h; cases h
    · rintro ⟨h, -⟩; exact absurd h hb

/-- A successor is a block of the routine other than the entry. -/
theorem Closed.succ_mem {f : Routine} (hf : f.Closed) {b c : BlockId} (h : c ∈ f.graph.succs b) :
    c ≠ entry ∧ c < f.blocks.size := by
  obtain ⟨hb, hc⟩ := hf.mem_succs.mp h
  obtain ⟨t, ht, hne, hlt⟩ := hf.target b hb c hc
  obtain rfl : c = t := Int.ofNat.inj ht
  exact ⟨hne, hlt⟩

theorem Closed.bounded {f : Routine} (hf : f.Closed) : FlowGraph.Bounded f.graph.table := by
  intro a b hb
  have hlt := (hf.succ_mem (c := b) (b := a) hb).2
  simpa [graph, FlowGraph.ofTable] using hlt

/-- The successors of a block are different: an exit has each of its targets once. -/
theorem Closed.nodup_succs {f : Routine} (hf : f.Closed) (b : BlockId) :
    (f.graph.succs b).Nodup := by
  by_cases hb : b < f.blocks.size
  · have hleads : (f.leads b).Nodup := by
      unfold leads
      split
      · exact Exit.nodup_labels _
      · exact List.nodup_singleton _
    rw [succs_graph hb]
    refine hleads.map_on fun l hl l' hl' he => ?_
    obtain ⟨t, rfl, -, -⟩ := hf.target b hb l hl
    obtain ⟨t', rfl, -, -⟩ := hf.target b hb l' hl'
    rw [Int.toNat_natCast, Int.toNat_natCast] at he
    rw [he]
  · rw [succs_graph_out (Nat.le_of_not_lt hb)]
    exact List.nodup_nil

/-- The order holds exactly the blocks that the entry reaches. -/
theorem Closed.mem_order {f : Routine} (hf : f.Closed) {b : BlockId} :
    b ∈ f.graph.order ↔ f.graph.Reach b :=
  FlowGraph.mem_ofTable_order hf.bounded

theorem nodup_order (f : Routine) : f.graph.order.Nodup := FlowGraph.nodup_ofTable_order _

theorem Closed.lt_of_mem_order {f : Routine} (hf : f.Closed) {b : BlockId} (h : b ∈ f.graph.order) :
    b < f.blocks.size := by
  have hbody := hf.body
  cases hf.mem_order.mp h with
  | entry => exact Nat.lt_of_lt_of_le Nat.zero_lt_two hbody
  | step _ hab => exact (hf.succ_mem hab).2

theorem Closed.entry_mem_order {f : Routine} (hf : f.Closed) : entry ∈ f.graph.order :=
  hf.mem_order.mpr .entry

/-- A successor of a reached block is reached. -/
theorem Closed.succ_mem_order {f : Routine} (hf : f.Closed) {b c : BlockId} (hb : b ∈ f.graph.order)
    (hc : c ∈ f.graph.succs b) : c ∈ f.graph.order :=
  hf.mem_order.mpr (.step (hf.mem_order.mp hb) hc)

/-- A jump of a reached block leads to a reached block of the body. -/
theorem Closed.exists_succ {f : Routine} (hf : f.Closed) {b : BlockId} (hb : b ∈ f.graph.order)
    {l : Label} (hl : l ∈ f.leads b) :
    ∃ t : BlockId, l = t ∧ t ∈ f.graph.succs b ∧ t ∈ f.graph.order ∧ t ≠ entry := by
  have hlt := hf.lt_of_mem_order hb
  obtain ⟨t, rfl, h0, -⟩ := hf.target b hlt l hl
  have hs := hf.mem_succs.mpr ⟨hlt, hl⟩
  exact ⟨t, rfl, hs, hf.succ_mem_order hb hs, h0⟩

/-- Every reached block but the entry has a predecessor. -/
theorem Closed.exists_pred {f : Routine} (hf : f.Closed) {b : BlockId} (hb : b ∈ f.graph.order)
    (hne : b ≠ entry) : ∃ p, p ∈ f.graph.preds b := by
  cases hf.mem_order.mp hb with
  | entry => exact absurd rfl hne
  | step ha hab => exact ⟨_, FlowGraph.mem_preds.mpr ⟨hf.mem_order.mpr ha, hab⟩⟩

/-- Nothing leads to the entry. -/
theorem Closed.preds_entry {f : Routine} (hf : f.Closed) : f.graph.preds entry = [] := by
  rw [List.eq_nil_iff_forall_not_mem]
  intro p hp
  exact (hf.succ_mem (FlowGraph.mem_preds.mp hp).2).1 rfl

end Routine

end ProcCompiler
