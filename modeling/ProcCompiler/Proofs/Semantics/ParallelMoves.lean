import ProcCompiler.Proofs.Lowering.OwnBindings
import ProcCompiler.Proofs.Lowering.Settled
import ProcCompiler.Proofs.Lowering.Subdivision
import ProcCompiler.Proofs.Renaming.Invariance
import ProcCompiler.Proofs.Semantics.Registers
/-!
# The moves on an edge are one assignment

The block of an edge moves one variable after another into the registers that the join reads. It
waits for its sources when the moves are written, and delivery fills them in; around a loop a source
may itself be a register that edges share. Still no move reads what an earlier one wrote. A register
that lowering makes is bound, from block to block, to the variable that it was made for and to no
other, and all other registers are those of the original routine, whatever variables share them. So
the source of one variable is never the target of another.

* `moveAll_eq_assignAll`: moves that read nothing that was written before act at once.
* `Transit.Filling.run`: every block is filled with what arrived in it.
* `Transit.Serving.run`: what arrives for a variable serves it.
* `Stages.serves`: the bindings with which delivery starts.
* `Stages.edge_block`, `Stages.binding?_join`: the block of an edge, and the join, after delivery.
* `edge_moves_assign`: the block of an edge, as it is run.
-/
namespace ProcCompiler

open Routine

/-! ## One move after another -/

section Moves

variable {V W : Type}

/-- Moves, each a target with its source, made in order. -/
def moveAll (moves : List (Reg × Reg)) (mem : Reg → V) : Reg → V :=
  moves.foldl (fun mem m => Function.update mem m.1 (mem m.2)) mem

/-- Moves made at once: every source is read before any target is written. -/
def assignAll (moves : List (Reg × Reg)) (mem : Reg → V) (r : Reg) : V :=
  mem ((moves.lookup r).getD r)

/-- A source is one of the list. -/
theorem mem_of_lookup {moves : List (Reg × Reg)} {r s : Reg} (h : moves.lookup r = some s) :
    (r, s) ∈ moves := by
  obtain ⟨before, after, rfl, -⟩ := List.lookup_eq_some_iff.mp h
  exact List.mem_append_right _ List.mem_cons_self

/-- Moves that read nothing that was written before act at once. -/
theorem moveAll_eq_assignAll {moves : List (Reg × Reg)} (hn : (moves.map Prod.fst).Nodup)
    (hp : moves.Pairwise fun earlier later => later.2 ≠ earlier.1) (mem : Reg → V) :
    moveAll moves mem = assignAll moves mem := by
  induction moves generalizing mem with
  | nil => rfl
  | cons m moves ih =>
    rw [List.map_cons, List.nodup_cons] at hn
    rw [List.pairwise_cons] at hp
    funext r
    show moveAll moves (Function.update mem m.1 (mem m.2)) r = _
    rw [ih hn.2 hp.2, assignAll, assignAll, List.lookup_cons]
    by_cases hr : r = m.1
    · -- no later move writes the target again
      have hnone : moves.lookup r = none := List.lookup_eq_none_iff.mpr fun q hq =>
        bne_iff_ne.mpr fun he => hn.1 (List.mem_map.mpr ⟨q, hq, by rw [← he, hr]⟩)
      rw [hnone, hr, beq_self_eq_true]
      exact Function.update_self ..
    · rw [beq_eq_false_iff_ne.mpr hr]
      refine Function.update_of_ne ?_ ..
      cases hs : moves.lookup r with
      | none => exact hr
      | some s => exact hp.1 _ (mem_of_lookup hs)

/-- A block that starts with moves makes them in order. -/
theorem runs_moves (I : Interp V W) (fnName : FuncId → String) {blocks : BlockId → Listing Reg}
    {b : BlockId} {moves : List (Reg × Reg)}
    (h : (blocks b).body = moves.map fun m => .move m.1 m.2) (s : Store Reg V W) :
    (blockMachine I fnName blocks).Runs moves.length ⟨⟨b, 0⟩, s⟩ []
      ⟨⟨b, moves.length⟩, ⟨moveAll moves s.mem, s.world⟩⟩ := by
  suffices key : ∀ (rest done : List (Reg × Reg)) (s : Store Reg V W), moves = done ++ rest →
      (blockMachine I fnName blocks).Runs rest.length ⟨⟨b, done.length⟩, s⟩ []
        ⟨⟨b, moves.length⟩, ⟨moveAll rest s.mem, s.world⟩⟩ from key moves [] s rfl
  intro rest
  induction rest with
  | nil =>
    intro done s he
    rw [he, List.append_nil]
    exact .refl _
  | cons m rest ih =>
    intro done s he
    have hat : (blocks b).body[done.length]? = some (.move m.1 m.2) := by simp [h, he]
    have hrest := ih (done ++ [m]) (s.set m.1 (s.mem m.2)) (by simp [he])
    rw [List.length_append, List.length_singleton] at hrest
    exact .step (blockStep_action (q := ⟨b, done.length⟩) hat rfl) hrest

end Moves

/-! ## What delivery brings -/

namespace Transit

/-- Blocks without a repeated parameter are filled with what arrived, and nothing arrived for what
still waits. -/
structure Filling (f : Routine) (t : Transit) : Prop where
  size : t.routine.blocks.size = f.blocks.size
  blocks : ∀ b < f.blocks.size, (f.block b).params.Nodup →
    (f.block b).Filled (t.routine.block b) (t.got b)
  waiting : ∀ b v, { block := b, var := v } ∈ t.waiting → t.got b v = none

theorem got_start (f : Routine) (g : FlowGraph) (n : Needs) (b : BlockId) :
    (start f g n).got b = fun _ => none := by
  funext v
  simp [start, got]

theorem Filling.start (f : Routine) (g : FlowGraph) (n : Needs) : Filling f (start f g n) where
  size := rfl
  blocks b _ _ := by
    rw [got_start]
    exact Block.filled_refl _
  waiting b v _ := by rw [got_start]

theorem Filling.accept {f : Routine} {g : FlowGraph} {t : Transit} (h : Filling f t) {c : BlockId}
    {v : Var} (r : Reg) (hw : { block := c, var := v } ∈ t.waiting) :
    Filling f (t.accept g ⟨c, v⟩ r) where
  size := (Routine.size_modifyBlock ..).trans h.size
  blocks b hb hn := by
    by_cases hbc : b = c
    · subst hbc
      rw [block_accept_self (h.size ▸ hb), got_accept_block]
      exact (h.blocks b hb hn).receive hn (h.waiting b v hw) r
    · rw [block_accept_ne t hbc, got_accept_ne t hbc]
      exact h.blocks b hb hn
  waiting b w hb := by
    obtain ⟨hne, hb⟩ := mem_waiting_accept.mp hb
    rw [got_accept, if_neg (Ne.symm hne)]
    exact h.waiting b w hb

theorem Filling.run {f : Routine} {g : FlowGraph} {n : Needs} {t : Transit}
    (h : (Transit.start f g n).run g = .ok t) :
    Filling f t :=
  run_preserves (P := Filling f) (Q := fun _ => True) (fun _ d _ ht _ _ hw => ht.accept d.reg hw)
    (fun _ _ _ _ => trivial) (fun _ _ _ ht _ => ⟨ht.size, ht.blocks, ht.waiting⟩) h (.start f g n)

/-- What is bound, on its way and arrived for a variable serves it. -/
structure Serving (serves : Reg → Var → Prop) (g : FlowGraph) (t : Transit) : Prop where
  bindings : ∀ b ∈ g.order, ∀ v r, (t.routine.block b).binding? v = some r → serves r v
  queue : ∀ d ∈ t.queue, d.site.block ∈ g.order ∧ serves d.reg d.site.var
  got : ∀ b v r, t.got b v = some r → serves r v

variable {serves : Reg → Var → Prop} {g : FlowGraph}

theorem Serving.start {f : Routine} {n : Needs}
    (h : ∀ b ∈ g.order, ∀ v r, (f.block b).binding? v = some r → serves r v) :
    Serving serves g (start f g n) where
  bindings := h
  queue d hd := by
    simp only [Transit.start, mem_foldr_enqueue, List.mem_flatMap] at hd
    obtain ⟨b, hb, hd⟩ := hd
    obtain ⟨v, r, hr, rfl⟩ := mem_bindingDeliveries.mp hd
    exact ⟨hb, h b hb v r hr⟩
  got b v r hr := by rw [got_start] at hr; cases hr

/-- A binding after something arrived was there before, or is what arrived. -/
theorem binding?_cases_of_receive {f : Routine} {b c : BlockId} {v w : Var} {r x : Reg}
    (h : ((f.modifyBlock c (·.receive v r)).block b).binding? w = some x) :
    (f.block b).binding? w = some x ∨ w = v ∧ x = r := by
  by_cases hlt : b < f.blocks.size
  · by_cases hb : c = b
    · subst hb
      rw [Routine.block_modifyBlock_self hlt, Block.binding?_receive, Option.or_eq_some_iff] at h
      refine h.imp id fun ⟨_, hx⟩ => ?_
      by_cases hw : w = v
      · subst hw
        rw [Function.update_self] at hx
        exact ⟨rfl, (Option.some.inj hx).symm⟩
      · rw [Function.update_of_ne hw] at hx
        cases hx
    · rw [Routine.block_modifyBlock_ne hb] at h
      exact .inl h
  · rw [Routine.block_of_le (by rw [Routine.size_modifyBlock]; exact Nat.le_of_not_lt hlt)] at h
    simp [Block.binding?] at h

theorem Serving.accept {t : Transit} (h : Serving serves g t) {c : BlockId} {v : Var} {r : Reg}
    (hc : c ∈ g.order) (hr : serves r v) : Serving serves g (t.accept g ⟨c, v⟩ r) := by
  have hbindings : ∀ b ∈ g.order, ∀ w x, ((t.accept g ⟨c, v⟩ r).routine.block b).binding? w =
      some x →
      serves x w := by
    intro b hb w x hx
    rcases binding?_cases_of_receive hx with hx | ⟨rfl, rfl⟩
    · exact h.bindings b hb w x hx
    · exact hr
  refine ⟨hbindings, fun d hd => ?_, fun b w x hx => ?_⟩
  · rcases mem_queue_accept.mp hd with rfl | hd
    · exact ⟨hc, handed_of (P := (serves · v)) hr (h.bindings c hc v)⟩
    · exact h.queue d hd
  · rw [got_accept] at hx
    split at hx
    · rename_i he
      cases he
      cases hx
      exact hr
    · exact h.got b w x hx

theorem Serving.run {f : Routine} {n : Needs} {t : Transit}
    (hsucc : ∀ b ∈ g.order, ∀ c ∈ g.succs b, c ∈ g.order)
    (hf : ∀ b ∈ g.order, ∀ v r, (f.block b).binding? v = some r → serves r v)
    (h : (Transit.start f g n).run g = .ok t) : Serving serves g t :=
  run_preserves (P := Serving serves g)
    (Q := fun d => d.site.block ∈ g.order ∧ serves d.reg d.site.var)
    (fun _ d c ht hd hc _ => ht.accept (hsucc d.site.block hd.1 c hc) hd.2) (fun _ ht => ht.queue)
    (fun _ d _ ht hq => ⟨ht.bindings, fun e he => ht.queue e (hq ▸ List.mem_cons_of_mem d he),
      ht.got⟩) h
    (.start hf)

end Transit

/-! ## Whom a register serves -/

/-- Variables that arrive are bound to what arrived, unless the block binds them itself. -/
theorem Block.binding?_receiveAll (σ : Var → Reg) (v : Var) (vars : List Var) (b : Block) :
    (b.receiveAll (vars.zip (vars.map σ))).binding? v =
      (b.binding? v).or (if v ∈ vars then some (σ v) else none) := by
  induction vars generalizing b with
  | nil => exact (Option.or_none ..).symm
  | cons w vars ih =>
    refine (ih (b.receive w (σ w))).trans ?_
    rw [binding?_receive, Option.or_assoc]
    congr 1
    by_cases hv : v = w
    · subst hv
      simp
    · simp [hv]

/-- A binding of the routine with split joins was there before, or is to a register that edges share
for the variable. -/
theorem SplitOf.binding?_cases {f f' : Routine} {n : Needs} (h : SplitOf f n f') {b : BlockId}
    (hb : b < f'.blocks.size) {v : Var} {r : Reg} (hr : (f'.block b).binding? v = some r) :
    b < f.blocks.size ∧ (f.block b).binding? v = some r ∨
      ∃ t, f.graph.IsJoin n t ∧ v ∈ n.of t ∧ r = f.shared n t v := by
  rcases h.old_or_edge hb with ho | ⟨e, he, rfl⟩
  · by_cases hj : f.graph.IsJoin n b
    · rw [h.block_join hj] at hr
      rw [Block.binding?_receiveAll, Option.or_eq_some_iff] at hr
      rcases hr with hr | ⟨-, hr⟩
      · exact .inl ⟨ho, hr⟩
      · split at hr
        · exact .inr ⟨b, hj, ‹_›, (Option.some.inj hr).symm⟩
        · cases hr
    · rw [h.block_other ho hj] at hr
      exact .inl ⟨ho, hr⟩
  · rw [h.block_edge he, binding?_edgeBlock (Needs.nodup_of (Routine.nodup_sites h.needs) _)] at hr
    split at hr
    · cases hr
      exact .inr ⟨e.target, (h.mem_edges.mp he).1, ‹_›, rfl⟩
    · cases hr

/-- A binding of the routine with an exit was there before. -/
theorem Routine.Closed.binding?_of_addExit {f : Routine} (hf : f.Closed) {b : BlockId}
    (hb : b ∈ (f.addExit f.graph).1.graph.order) {v : Var} {r : Reg}
    (hr : ((f.addExit f.graph).1.block b).binding? v = some r) :
    b ∈ f.graph.order ∧ (f.block b).binding? v = some r := by
  have hlt := hf.addExit.lt_of_mem_order hb
  rw [size_addExit] at hlt
  rcases Nat.lt_succ_iff_lt_or_eq.mp hlt with hlt | rfl
  · exact ⟨(hf.mem_order_addExit hlt).mp hb, (binding?_addExit hlt v).symm.trans hr⟩
  · rw [block_addExit_exit] at hr
    simp [Block.binding?] at hr

/-- A register serves a variable if the original routine has it, or if it was made for the
variable. -/
def Serves (f F : Routine) (r : Reg) (v : Var) : Prop := r < f.regs.size ∨ F.Owns r v

namespace Stages

variable {f F : Routine} {slots : List Slot} {l : Lowered} (s : Stages f slots F l)

theorem edges_eq : l.edges = edgeBlocks s.single.blocks.size (s.single.edges s.needs) :=
  (splitOf_of_splitJoins s.analyze_single s.needs_eq s.splitJoins_eq).2

theorem regs_single : s.single.regs = f.regs := by rw [s.single_eq, Routine.regs_addExit]

theorem argued : Argued s.split slots (s.needs.of entry) s.bound :=
  (bindArguments_argued s.entry_lt s.bindArguments_eq).2.1

theorem regs_split : s.split.regs.toList <+: F.regs.toList := by
  rw [(sameShape_deliverAll s.deliverAll_eq).regs]
  exact ⟨_, s.argued.regs.symm⟩

theorem owns_shared {t : BlockId} (ht : s.single.graph.IsJoin s.needs t) {v : Var}
    (hv : v ∈ s.needs.of t) :
    F.Owns (s.single.shared s.needs t v) v := by
  obtain ⟨r, hr, -, hinfo⟩ := s.splitOf.shared_spec ht hv
  rw [hr]
  exact Owns.of_prefix s.regs_split (congrArg (Option.map RegInfo.var) hinfo)

/-- A shared register is none of the original routine. -/
theorem le_shared {t : BlockId} (v : Var) : (f.regs.size : Int) ≤ s.single.shared s.needs t v := by
  have hle : f.regs.size ≤ s.single.regs.size + (s.single.sites s.needs).idxOf ⟨t, v⟩ := by
    rw [s.regs_single]
    exact Nat.le_add_right _ _
  exact Int.ofNat_le.mpr hle

/-- The blocks of the single routine that are reached after the split. -/
theorem mem_order_single {b : BlockId} (hb : b ∈ s.graph.order) (hlt : b < s.single.blocks.size) :
    b ∈ s.single.graph.order := (s.splitOf.mem_order_old hlt).mp (s.graph_eq ▸ hb)

theorem lt_of_mem_order {b : BlockId} (hb : b ∈ s.graph.order) : b < s.split.blocks.size :=
  s.splitOf.closed'.lt_of_mem_order (s.graph_eq ▸ hb)

theorem succ_mem_order {b c : BlockId} (hb : b ∈ s.graph.order) (hc : c ∈ s.graph.succs b) :
    c ∈ s.graph.order := by
  rw [s.graph_eq] at hb hc ⊢
  exact s.splitOf.closed'.succ_mem_order hb hc

/-- Before the arguments are bound, the reached blocks bind registers of the original routine and
shared ones. -/
theorem serves_split (ha : f.Allocated) {b : BlockId} (hb : b ∈ s.graph.order) {v : Var} {r : Reg}
    (hr : (s.split.block b).binding? v = some r) : Serves f F r v := by
  have hclosed := closed_of_analyze s.analyze_built
  rcases s.splitOf.binding?_cases (s.lt_of_mem_order hb) hr with ⟨hold, hr⟩ | ⟨t, ht, hv, rfl⟩
  · have ho := s.mem_order_single hb hold
    rw [s.single_eq, eq_graph_of_analyze s.analyze_built] at hr ho
    obtain ⟨ho, hr⟩ := hclosed.binding?_of_addExit ho hr
    exact .inl (ha b (hclosed.mem_order.mp ho) r (Block.mem_registers.mpr (.inr ⟨v, hr⟩))).2
  · exact .inr (s.owns_shared ht hv)

/-- The registers that the reached blocks bind when delivery starts serve their variables. -/
theorem serves (ha : f.Allocated) :
    ∀ b ∈ s.graph.order, ∀ v r, (s.bound.block b).binding? v = some r → Serves f F r v := by
  intro b hb v r hr
  by_cases hbe : b = entry
  · subst hbe
    by_cases hv : v ∈ s.needs.of entry ∧ v ∈ slots.map Slot.var
    · obtain ⟨k, -, hbind, hinfo⟩ := s.argued.given v hv.1 hv.2
      cases hr.symm.trans hbind
      rw [← (sameShape_deliverAll s.deliverAll_eq).regs] at hinfo
      exact .inr (congrArg (Option.map RegInfo.var) hinfo)
    · rw [s.argued.kept v hv] at hr
      exact s.serves_split ha hb hr
  · rw [s.argued.other b hbe] at hr
    exact s.serves_split ha hb hr

/-! ## The block of an edge -/

/-- The block of an edge in the final routine: each variable that the join needs is moved from the
register to which the block before the edge binds it, and which serves it. -/
theorem edge_block (ha : f.Allocated) {e : Edge} (he : e ∈ s.single.edges s.needs) :
    (F.block (s.single.edgeId s.needs e)).exit = some (.jump e.target) ∧ ∃ source : Var → Reg,
      (∀ v ∈ s.needs.of e.target, Serves f F (source v) v) ∧
      (∀ v ∈ s.needs.of e.target, (F.block e.source).binding? v = some (source v)) ∧
      (F.block (s.single.edgeId s.needs e)).body = (s.needs.of e.target).map fun v =>
        .move (s.single.shared s.needs e.target v) (.reg (source v)) := by
  have hsplit := s.splitOf
  have hne : s.single.edgeId s.needs e ≠ entry :=
    Nat.ne_of_gt (Nat.lt_of_lt_of_le hsplit.entry_lt (le_edgeId _ _ e))
  have hmem : s.single.edgeId s.needs e ∈ s.graph.order := s.graph_eq ▸ hsplit.edge_mem_order he
  have hlt : s.single.edgeId s.needs e < s.bound.blocks.size := s.argued.size ▸ hsplit.edgeId_lt he
  have hnodup := Needs.nodup_of (Routine.nodup_sites hsplit.needs) e.target
  have hblock := (s.argued.other _ hne).trans (hsplit.block_edge he)
  obtain ⟨n, t, -, hrun, rfl, hparams⟩ := deliverAll_cases s.deliverAll_eq
  have hfilled := (Transit.Filling.run hrun).blocks _ hlt (by rw [hblock]; exact hnodup)
  have hclosed : ∀ b ∈ s.graph.order, ∀ c ∈ s.graph.succs b, c ∈ s.graph.order :=
    fun _ hb _ hc => s.succ_mem_order hb hc
  have hserves := Transit.Serving.run hclosed (s.serves ha) hrun
  have hsourced := Transit.Sourced.run hclosed hrun
    (.start (fun b hb => s.argued.size ▸ s.lt_of_mem_order hb) n)
  rw [hblock] at hfilled
  -- nothing waits any more, so every variable arrived
  have harrived : ∀ v ∈ s.needs.of e.target, ∃ r, t.got (s.single.edgeId s.needs e) v = some r := by
    intro v hv
    have hsome := List.filter_eq_nil_iff.mp (hfilled.params.symm.trans (hparams _ hmem)) v hv
    exact Option.ne_none_iff_exists'.mp fun hnone => hsome (by rw [hnone]; rfl)
  choose! source hsource using harrived
  refine ⟨Block.exitRef_eq_jump.mp (hfilled.exit.trans rfl), source, fun v hv => ?_,
    fun v hv => ?_, ?_⟩
  · exact hserves.got _ v _ (hsource v hv)
  · obtain ⟨p, hp, hbinding⟩ := hsourced.got _ v _ (hsource v hv)
    rw [s.graph_eq, hsplit.preds_edge he, List.mem_singleton] at hp
    rwa [hp] at hbinding
  · rw [← (s.layable.known _ hmem).body_eq, hfilled.body, bodyRefs_edgeBlock, List.map_map,
      List.map_map]
    refine List.map_congr_left fun v hv => ?_
    simp only [Function.comp, Action.mapRead, Ref.fill, hsource v hv, Ref.operand]

/-- A join binds what it needs to the shared registers, unless it binds it itself. -/
theorem binding?_join {t : BlockId} (ht : s.single.graph.IsJoin s.needs t) {v : Var}
    (hv : v ∈ s.needs.of t) (hnone : (f.block t).binding? v = none) :
    (F.block t).binding? v = some (s.single.shared s.needs t v) := by
  have hne : t ≠ entry := fun he => s.splitOf.entry_not_join (he ▸ ht)
  have hsingle : (s.single.block t).binding? v = none := by
    have hlt := s.splitOf.closed.lt_of_mem_order (s.splitOf.isJoin_mem_order ht)
    rw [s.single_eq, size_addExit] at hlt
    rw [s.single_eq]
    rcases Nat.lt_succ_iff_lt_or_eq.mp hlt with hlt | rfl
    · rw [binding?_addExit hlt, hnone]
    · rw [block_addExit_exit]
      rfl
  refine binding?_deliverAll s.deliverAll_eq ?_
  rw [s.argued.other t hne, s.splitOf.block_join ht, Block.binding?_receiveAll, if_pos hv]
  exact (congrArg (Option.or · _) hsingle).trans (Option.none_or ..)

/-- Edges share one register for each variable. -/
theorem nodup_shared {t : BlockId} (ht : s.single.graph.IsJoin s.needs t) :
    ((s.needs.of t).map (s.single.shared s.needs t)).Nodup :=
  (Needs.nodup_of (Routine.nodup_sites s.splitOf.needs) t).map_on fun _ hv _ _ heq =>
    (s.splitOf.shared_inj ht hv heq).2

/-- A source that serves its variable is not shared for another one. -/
theorem sources_apart {t : BlockId} (ht : s.single.graph.IsJoin s.needs t) {source : Var → Reg}
    (hserves : ∀ v ∈ s.needs.of t, Serves f F (source v) v) :
    ((s.needs.of t).map fun v => (s.single.shared s.needs t v, source v)).Pairwise
      fun earlier later => later.2 ≠ earlier.1 := by
  rw [List.pairwise_map]
  have hneeds := Needs.nodup_of (Routine.nodup_sites s.splitOf.needs) t
  refine List.Pairwise.imp_of_mem (fun {v w} hv hw hne heq => ?_) hneeds
  have heq : source w = s.single.shared s.needs t v := heq
  have hsource := hserves w hw
  rw [heq] at hsource
  rcases hsource with hlt | hown
  · exact absurd hlt (not_lt.mpr (s.le_shared v))
  · exact hne ((s.owns_shared ht hv).inj hown)

end Stages

/-- A target and its source for each variable. -/
def edgeMoves (vars : List Var) (shared source : Var → Reg) : List (Reg × Reg) :=
  vars.map fun v => (shared v, source v)

/-- The block `e` of `F` stands on the edge from `p` to `t`, to which it brings the variables
`vars`. It moves the register to which `p` binds each of them into the one that is shared for it,
and `t` binds it to that one unless `t` bound it in `f` already. No move reads what an earlier one
wrote; and whatever the registers hold when the block is entered, each target ends up with what its
source held then. -/
structure MovesAtOnce (f F : Routine) (vars : List Var) (shared source : Var → Reg)
    (p e t : BlockId) : Prop where
  body : (F.block e).body = (edgeMoves vars shared source).map fun m => .move m.1 (.reg m.2)
  exit : (F.block e).exit = some (.jump t)
  comes : ∀ v ∈ vars, (F.block p).binding? v = some (source v)
  arrives : ∀ v ∈ vars, (f.block t).binding? v = none → (F.block t).binding? v = some (shared v)
  nodup : (vars.map shared).Nodup
  apart : (edgeMoves vars shared source).Pairwise fun earlier later => later.2 ≠ earlier.1
  runs : ∀ (V W : Type) (I : Interp V W) (fnName : FuncId → String) (s : Store Reg V W),
    (blockMachine I fnName F.listing).Runs vars.length ⟨⟨e, 0⟩, s⟩ []
      ⟨⟨e, vars.length⟩, ⟨assignAll (edgeMoves vars shared source) s.mem, s.world⟩⟩

/-- The block on every edge into a join moves all that the join needs into the registers that its
edges share, and the moves act as one assignment. These are all the blocks that were put on
edges. -/
theorem edge_moves_assign {f F : Routine} {slots : List Slot} {l : Lowered}
    (h : f.lower slots = .ok (F, .ok l)) (ha : f.Allocated) : ∃ s : Stages f slots F l,
      (∀ b, b ∈ l.edges ↔ ∃ e ∈ s.single.edges s.needs, b = s.single.edgeId s.needs e) ∧
      ∀ e ∈ s.single.edges s.needs, ∃ source : Var → Reg, MovesAtOnce f F (s.needs.of e.target)
        (s.single.shared s.needs e.target) source e.source
        (s.single.edgeId s.needs e) e.target := by
  obtain ⟨s⟩ := exists_stages h
  refine ⟨s, fun b => by rw [s.edges_eq, s.splitOf.mem_edgeBlocks], fun e he => ?_⟩
  obtain ⟨hexit, source, hserves, hcomes, hbody⟩ := s.edge_block ha he
  have hjoin := (s.splitOf.mem_edges.mp he).1
  have hnodup := s.nodup_shared hjoin
  have hapart := s.sources_apart hjoin hserves
  refine ⟨source, ?_, hexit, hcomes, fun v => s.binding?_join hjoin, hnodup, hapart,
    fun V W I fnName store => ?_⟩
  · rw [hbody, edgeMoves, List.map_map]
    rfl
  · have htargets : ((edgeMoves (s.needs.of e.target) (s.single.shared s.needs e.target) source).map
        Prod.fst).Nodup := by
      rw [edgeMoves, List.map_map]
      exact hnodup
    have hlisting : (F.listing (s.single.edgeId s.needs e)).body =
        (edgeMoves (s.needs.of e.target) (s.single.shared s.needs e.target) source).map
          fun m => .move m.1 m.2 := by
      rw [Routine.listing, hbody, edgeMoves, List.map_map, List.map_map]
      rfl
    have hrun := runs_moves I fnName hlisting store
    rwa [moveAll_eq_assignAll htargets hapart, edgeMoves, List.length_map] at hrun

/-- Two nested loops. The inner one swaps `x` and `y`; the outer one gives `y` the register of `x`;
`z` is passed on through both. -/
def nestRoutine : Routine := (History.of "nest"
  [.newVar "x", .newVar "y", .newVar "z", .createBlock, .createBlock, .createBlock, .createBlock,
    .read 1 0, .add 1 (.exit (.branch (.param 0) 2 4)),
    .read 2 0, .read 2 1, .write 2 0, .add 2 (.action (.move 0 (.param 1))), .write 2 1,
    .add 2 (.action (.move 1 (.param 0))), .add 2 (.exit (.branch (.reg 0) 2 3)),
    .writeReg 3 1 0, .add 3 (.exit (.jump 1)),
    .read 4 2, .write 4 2, .add 4 (.action (.call 0 2 (.param 0))), .add 4 (.exit .ret)]).routine

def nestSlots : List Slot :=
  [{ var := 0, size := 8 }, { var := 1, size := 8 }, { var := 2, size := 8 }]

/-- On the way back around the outer loop `z` comes from the register that the inner loop shares for
it, and around the inner loop from the very register that it is moved to. -/
theorem edge_moves_assign_nest :
    nestRoutine.Allocated ∧ ∃ F l, nestRoutine.lower nestSlots = .ok (F, .ok l) ∧
    l.edges = [6, 7, 8, 9] ∧
    (F.block 7).body = [.move 3 (.reg 0), .move 4 (.reg 0), .move 5 (.reg 8)] ∧
    (F.block 9).body = [.move 6 (.reg 0), .move 7 (.reg 1), .move 8 (.reg 8)] ∧
    ∃ s : Stages nestRoutine nestSlots F l,
      (∀ b, b ∈ l.edges ↔ ∃ e ∈ s.single.edges s.needs, b = s.single.edgeId s.needs e) ∧
      ∀ e ∈ s.single.edges s.needs, ∃ source : Var → Reg, MovesAtOnce nestRoutine F
        (s.needs.of e.target) (s.single.shared s.needs e.target) source e.source
        (s.single.edgeId s.needs e) e.target := by
  obtain ⟨F, l, hl, h⟩ :=
    exists_lowered nestRoutine nestSlots (fun F l => decide (l.edges = [6, 7, 8, 9] ∧
      (F.block 7).body = [.move 3 (.reg 0), .move 4 (.reg 0), .move 5 (.reg 8)] ∧
      (F.block 9).body = [.move 6 (.reg 0), .move 7 (.reg 1), .move 8 (.reg 8)]))
      (by decide +kernel)
  obtain ⟨hedges, h7, h9⟩ := of_decide_eq_true h
  have ha : nestRoutine.Allocated := by
    obtain ⟨s⟩ := exists_stages hl
    have horder : ∀ b ∈ nestRoutine.graph.order, ∀ r ∈ (nestRoutine.block b).registers,
        0 ≤ r ∧ r < nestRoutine.regs.size := by decide +kernel
    exact fun b hb => horder b ((closed_of_analyze s.analyze_built).mem_order.mpr hb)
  exact ⟨ha, F, l, hl, hedges, h7, h9, edge_moves_assign hl ha⟩

end ProcCompiler
