import ProcCompiler.Proofs.Renaming.Routine
/-!
# Splitting joins under other names

Alike routines have the same joins, the same edges into them and the same shared registers, in the
same order. So when the joins are split, the new blocks and registers correspond one to one, and the
routines have the same graph again.

* `Alike.edges_renamed`, `Alike.joinSites_renamed`: the edges that are split and what they carry.
* `Alike.via_renamed`, `Alike.shared_renamed`: where a jump leads, and the register of a variable at
  a join.
* `Routine.unfilled`, `Alike.unfilled_renamed`: the blocks before registers come into them.
* `Alike.split_graph`: the graphs with split joins have the same reached part.
-/
namespace ProcCompiler

namespace Routine

variable {f f' : Routine} {ρ : Int → Int}

/-- The names `ρ` of the registers of `f`; registers that are added to `f` have the names of those
added to `f'`. -/
def extendRegs (f f' : Routine) (ρ : Int → Int) (r : Int) : Int :=
  if r < f.regs.size then ρ r else r - f.regs.size + f'.regs.size

/-- The registers in `R` and those that are added to the routine. -/
def withFresh (f : Routine) (R : Set Int) : Set Int := {r | r ∈ R ∨ (f.regs.size : Int) ≤ r}

theorem extendRegs_of_lt {r : Int} (h : r < f.regs.size) : f.extendRegs f' ρ r = ρ r := if_pos h

theorem extendRegs_of_le {r : Int} (h : (f.regs.size : Int) ≤ r) :
    f.extendRegs f' ρ r = r - f.regs.size + f'.regs.size := if_neg (Int.not_lt.mpr h)

theorem extendRegs_add (i : Nat) :
    f.extendRegs f' ρ ((f.regs.size + i : Nat) : Int) = ((f'.regs.size + i : Nat) : Int) := by
  rw [extendRegs_of_le (by omega)]
  omega

theorem injOn_extendRegs {R : Set Int} (hρ : Set.InjOn ρ R)
    (hR : ∀ r ∈ R, r < f.regs.size ∧ ρ r < f'.regs.size) :
    Set.InjOn (f.extendRegs f' ρ) (f.withFresh R) := by
  rintro r (hr | hr) s (hs | hs) he
  · rw [extendRegs_of_lt (hR r hr).1, extendRegs_of_lt (hR s hs).1] at he
    exact hρ hr hs he
  · rw [extendRegs_of_lt (hR r hr).1, extendRegs_of_le hs] at he
    have := (hR r hr).2
    omega
  · rw [extendRegs_of_lt (hR s hs).1, extendRegs_of_le hr] at he
    have := (hR s hs).2
    omega
  · rw [extendRegs_of_le hr, extendRegs_of_le hs] at he
    omega

end Routine

/-- The edge between the renamed blocks. -/
def Edge.rename (β : BlockId → BlockId) (e : Edge) : Edge := ⟨β e.source, β e.target⟩

/-- A block before registers come into it: an old block with its jumps along split edges, or the
block of an edge. -/
def Routine.unfilled (f : Routine) (n : Needs) (b : BlockId) : Block :=
  if b < f.blocks.size then (f.block b).mapLabel (f.viaLabel n b)
  else ((f.edges n)[b - f.blocks.size]?).elim {} fun e =>
    edgeBlock (n.of e.target) ((n.of e.target).map (f.shared n e.target)) e.target

namespace Routine

variable {f : Routine} {n : Needs}

theorem unfilled_old {b : BlockId} (hb : b < f.blocks.size) :
    f.unfilled n b = (f.block b).mapLabel (f.viaLabel n b) := if_pos hb

theorem unfilled_edge {e : Edge} (he : e ∈ f.edges n) : f.unfilled n (f.edgeId n e) =
    edgeBlock (n.of e.target) ((n.of e.target).map (f.shared n e.target)) e.target := by
  rw [unfilled, if_neg (Nat.not_lt.mpr (le_edgeId f n e)), edgeId, Nat.add_sub_cancel_left,
    List.getElem?_eq_getElem (List.idxOf_lt_length_iff.mpr he), List.getElem_idxOf]
  rfl

end Routine

namespace SplitOf

variable {f f₂ : Routine} {n : Needs} (hs : SplitOf f n f₂)

include hs

theorem edge_ends {e : Edge} (he : e ∈ f.edges n) :
    e.source ∈ f.graph.order ∧ e.target ∈ f.graph.order := by
  obtain ⟨hj, hp⟩ := hs.mem_edges.mp he
  exact ⟨(FlowGraph.mem_preds.mp hp).1, hs.isJoin_mem_order hj⟩

/-- A reached block is an old one that was reached, or the block of an edge. -/
theorem kinds {b : BlockId} (hb : b ∈ f₂.graph.order) :
    b ∈ f.graph.order ∨ ∃ e ∈ f.edges n, b = f.edgeId n e := by
  rcases hs.old_or_edge (hs.closed'.lt_of_mem_order hb) with ho | he
  · exact .inl ((hs.mem_order_old ho).mp hb)
  · exact .inr he

/-- The entry goes on along the first jump. -/
theorem route_eq (hf : f.Ready) : f₂.route = f.via n entry f.route := by
  have hroute := hs.split.route
  rw [if_neg (by simp [Block.isComplete, hf.bare.isOpen])] at hroute
  exact Int.ofNat.inj (hroute.trans (viaLabel_natCast f n entry f.route))

/-- Splitting the joins does not change where a block leads. -/
theorem exitLabels_unfilled {b : BlockId} (hb : b ∈ f₂.graph.order) :
    (f₂.block b).exitLabels = (f.unfilled n b).exitLabels := by
  rcases hs.kinds hb with ho | ⟨e, he, rfl⟩
  · have hlt := hs.closed.lt_of_mem_order ho
    rw [hs.exitLabels_old hlt, Routine.unfilled_old hlt]
  · rw [hs.block_edge he, Routine.unfilled_edge he]

end SplitOf

namespace Routine.Alike

variable {β : BlockId → BlockId} {ν : Var → Var} {ρ : Reg → Reg} {V : Set Var} {R : Set Reg}
  {f f' f₂ f₂' : Routine} {n n' : Needs} (h : Alike β ν ρ V R f f') (hs : SplitOf f n f₂)
    (hs' : SplitOf f' n' f₂')

include h

/-- No two registers that are mentioned or added have the same name. -/
theorem injOn_regs : Set.InjOn (f.extendRegs f' ρ) (f.withFresh R) :=
  injOn_extendRegs h.regs fun r hr => (h.made r hr).2

include hs hs'

theorem isJoin_iff {t : BlockId} (ht : t ∈ f.graph.order) :
    f'.graph.IsJoin n' (β t) ↔ f.graph.IsJoin n t := by
  rw [FlowGraph.IsJoin, FlowGraph.IsJoin, h.graph.preds ht, h.of_renamed hs.needs hs'.needs ht,
    List.length_map, ne_eq, ne_eq, List.map_eq_nil_iff]

/-- The same edges are split, in the same order. -/
theorem edges_renamed : f'.edges n' = (f.edges n).map (.rename β) := by
  rw [edges, edges, FlowGraph.joinEdges, FlowGraph.joinEdges, h.graph.order, List.flatMap_map,
    List.map_flatMap]
  apply List.flatMap_congr
  intro t ht
  simp only [h.isJoin_iff hs hs' ht]
  split
  · rw [h.graph.preds ht, List.map_map, List.map_map]
    rfl
  · rfl

/-- The joins need the same, in the same order. -/
theorem joinSites_renamed : f'.sites n' = (f.sites n).map (.rename β ν) := by
  rw [sites, sites, FlowGraph.joinSites, FlowGraph.joinSites, h.graph.order, List.flatMap_map,
    List.map_flatMap]
  apply List.flatMap_congr
  intro t ht
  simp only [h.isJoin_iff hs hs' ht]
  split
  · rw [h.of_renamed hs.needs hs'.needs ht, List.map_map, List.map_map]
    rfl
  · rfl

omit hs' in
/-- An edge with its name determines the edge. -/
theorem edge_inj {b t : BlockId} (hb : b ∈ f.graph.order) (ht : t ∈ f.graph.order) :
    ∀ e ∈ f.edges n, e.rename β = Edge.rename β ⟨b, t⟩ → e = ⟨b, t⟩ := by
  rintro ⟨p, u⟩ he heq
  obtain ⟨hj, hp⟩ := hs.mem_edges.mp he
  obtain ⟨hsource, htarget⟩ := Edge.mk.inj heq
  have hpb : p = b := h.blocks (FlowGraph.mem_preds.mp hp).1 hb hsource
  have hut : u = t := h.blocks (hs.isJoin_mem_order hj) ht htarget
  rw [hpb, hut]

theorem edgeId_renamed {b t : BlockId} (hb : b ∈ f.graph.order) (ht : t ∈ f.graph.order) :
    f'.edgeId n' ⟨β b, β t⟩ = f.extendBlocks f' β (f.edgeId n ⟨b, t⟩) := by
  rw [edgeId, edgeId, extendBlocks_add, h.edges_renamed hs hs']
  exact congrArg _ (idxOf_map_of_inj (h.edge_inj hs hb ht))

/-- A jump between renamed blocks leads to the renamed block. -/
theorem via_renamed {b t : BlockId} (hb : b ∈ f.graph.order) (ht : t ∈ f.graph.order) :
    f'.via n' (β b) (β t) = f.extendBlocks f' β (f.via n b t) := by
  have hmem : (⟨β b, β t⟩ : Edge) ∈ f'.edges n' ↔ (⟨b, t⟩ : Edge) ∈ f.edges n := by
    rw [h.edges_renamed hs hs', List.mem_map]
    constructor
    · rintro ⟨e, he, heq⟩
      rwa [← h.edge_inj hs hb ht e he heq]
    · exact fun he => ⟨_, he, rfl⟩
  rw [via, via]
  simp only [hmem]
  split
  · exact h.edgeId_renamed hs hs' hb ht
  · exact (extendBlocks_of_lt (h.lt ht).1).symm

/-- The registers shared at a join are numbered on alike. -/
theorem shared_renamed {t : BlockId} {v : Var} (ht : t ∈ f.graph.order) (hv : v ∈ V) :
    f'.shared n' (β t) (ν v) = f.extendRegs f' ρ (f.shared n t v) := by
  have hinj : ∀ s ∈ f.sites n, s.rename β ν = Site.rename β ν ⟨t, v⟩ → s = ⟨t, v⟩ := by
    intro s hm he
    obtain ⟨hb, -, hw⟩ := FlowGraph.mem_joinSites.mp hm
    exact injOn_siteRename h.blocks h.vars ⟨hb, h.of_mem hs.needs hw⟩ ⟨ht, hv⟩ he
  rw [shared, shared, sharedReg, sharedReg, extendRegs_add, h.joinSites_renamed hs hs']
  have hidx : ((f.sites n).map (Site.rename β ν)).idxOf ⟨β t, ν v⟩ = (f.sites n).idxOf ⟨t, v⟩ :=
    idxOf_map_of_inj hinj
  rw [hidx]

/-! ## The blocks before registers come into them -/

theorem edgeId_mem {e : Edge} (he : e ∈ f.edges n) :
    e.rename β ∈ f'.edges n' ∧ f.extendBlocks f' β (f.edgeId n e) = f'.edgeId n' (e.rename β) := by
  obtain ⟨hsource, htarget⟩ := hs.edge_ends he
  refine ⟨?_, (h.edgeId_renamed hs hs' hsource htarget).symm⟩
  rw [h.edges_renamed hs hs']
  exact List.mem_map_of_mem he

/-- The blocks are the same under the names that are numbered on. -/
theorem unfilled_renamed {b : BlockId} (hb : b ∈ f₂.graph.order) :
    (f.unfilled n b).Renamed (f.extendBlocks f' β) ν (f.extendRegs f' ρ)
      (f'.unfilled n' (f.extendBlocks f' β b)) := by
  rcases hs.kinds hb with ho | ⟨e, he, rfl⟩
  · rw [extendBlocks_of_lt (h.lt ho).1, unfilled_old (h.lt ho).1, unfilled_old (h.lt ho).2]
    have hregs : (f.block b).Renamed β ν (f.extendRegs f' ρ) (f'.block (β b)) :=
      (h.block b ho).congr fun r hr => (extendRegs_of_lt (h.made r (h.regs_mem b ho r hr)).2.1).symm
    refine hregs.mapLabel _ _ fun x hx l hl => ?_
    obtain ⟨t, ht, rfl⟩ := h.exit_lt ho hx hl
    rw [relabel_natCast, viaLabel_natCast, viaLabel_natCast, relabel_natCast,
      h.via_renamed hs hs' ho ht]
  · obtain ⟨he', hid⟩ := h.edgeId_mem hs hs' he
    have htarget := (hs.edge_ends he).2
    have hof : n'.of (e.rename β).target = (n.of e.target).map ν :=
      h.of_renamed hs.needs hs'.needs htarget
    have hnodup' : ((n.of e.target).map ν).Nodup := hof ▸ Needs.nodup_of (nodup_sites hs'.needs) _
    rw [hid, unfilled_edge he, unfilled_edge he', hof]
    have hlast : (e.rename β).target = f.extendBlocks f' β e.target :=
      (extendBlocks_of_lt (h.lt htarget).1).symm
    have key : (edgeBlock (n.of e.target) ((n.of e.target).map (f.shared n e.target))
        e.target).Renamed
        (f.extendBlocks f' β) ν (f.extendRegs f' ρ) (edgeBlock ((n.of e.target).map ν)
          (((n.of e.target).map ν).map (f'.shared n' (β e.target)))
          (f.extendBlocks f' β e.target)) :=
      Block.edgeBlock_renamed (fun v hv => h.shared_renamed hs hs' htarget (h.of_mem hs.needs hv))
        (Needs.nodup_of (nodup_sites hs.needs) e.target) hnodup'
    rw [← hlast] at key
    exact key

omit hs' in
theorem unfilled_vars {b : BlockId} (hb : b ∈ f₂.graph.order) {v : Var}
    (hv : v ∈ (f.unfilled n b).vars) : v ∈ V := by
  rcases hs.kinds hb with ho | ⟨e, he, rfl⟩
  · rw [unfilled_old (h.lt ho).1] at hv
    exact h.vars_mem b ho v hv
  · rw [unfilled_edge he, Block.mem_vars] at hv
    rcases hv with hv | hv
    · exact h.of_mem hs.needs hv
    · rw [binding?_edgeBlock (Needs.nodup_of (nodup_sites hs.needs) _)] at hv
      split at hv
      · exact h.of_mem hs.needs ‹_›
      · cases hv

omit hs' in
/-- The registers of a block are those of the routine or shared ones. -/
theorem unfilled_registers {b : BlockId} (hb : b ∈ f₂.graph.order) {r : Reg}
    (hr : r ∈ (f.unfilled n b).registers) : r ∈ f.withFresh R := by
  rcases hs.kinds hb with ho | ⟨e, he, rfl⟩
  · rw [unfilled_old (h.lt ho).1] at hr
    exact .inl (h.regs_mem b ho r (Block.registers_mapLabel hr))
  · rw [unfilled_edge he] at hr
    obtain ⟨v, -, rfl⟩ := Block.registers_edgeBlock (Needs.nodup_of (nodup_sites hs.needs) _) hr
    exact .inr (Int.ofNat_le.mpr (Nat.le_add_right _ _))

/-! ## The graph -/

theorem route_split : f₂'.route = f.extendBlocks f' β f₂.route := by
  rw [hs.route_eq h.ready, hs'.route_eq h.ready', h.route,
    ← h.via_renamed hs hs' h.ready.closed.entry_mem_order h.ready.route_mem_order, h.start]

/-- The graphs with split joins have the same reached part. -/
theorem split_graph : f₂.graph.Renamed (f.extendBlocks f' β) f₂'.graph := by
  have hinj : Set.InjOn (f.extendBlocks f' β) {b | b ∈ f₂.graph.order} :=
    h.injOn_blocks.mono fun b hb => by
      rcases hs.kinds hb with ho | ⟨e, -, rfl⟩
      · exact .inl ho
      · exact .inr (le_edgeId f n e)
  have hmem : ∀ b ∈ f₂.graph.order, f.extendBlocks f' β b ∈ f₂'.graph.order := by
    intro b hb
    rcases hs.kinds hb with ho | ⟨e, he, rfl⟩
    · rw [extendBlocks_of_lt (h.lt ho).1]
      exact (hs'.mem_order_old (h.lt ho).2).mpr (h.graph.mem_order ho)
    · obtain ⟨he', hid⟩ := h.edgeId_mem hs hs' he
      rw [hid]
      exact hs'.edge_mem_order he'
  refine hs.closed'.graph_renamed hs'.closed' hinj ?_ fun b hb => ?_
  · rw [extendBlocks_of_lt hs.entry_lt, h.start]
  · exact hs.closed'.leads_renamed hinj hb (h.unfilled_renamed hs hs' hb)
      (hs.exitLabels_unfilled hb)
      (hs'.exitLabels_unfilled (hmem b hb)) (h.route_split hs hs')

end Routine.Alike

end ProcCompiler
