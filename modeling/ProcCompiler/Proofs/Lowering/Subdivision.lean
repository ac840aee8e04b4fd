import ProcCompiler.Proofs.Lowering.Stages
import ProcCompiler.Proofs.Renaming.Block
import ProcCompiler.Proofs.Routine.History
/-!
# Splitting joins subdivides their edges

The pass puts one block on every edge into a join and nothing anywhere else. `Subdivides` says so of
the flow graphs before and after it: with each new block taken for the jump that it splits, every
block has its old successors, in their old order. `Rewired` says it of the blocks: an old block
changes in its jumps only, and a join reads the registers that its edges share where it waited for
something.

* `SplitOf.succs_old`: the successors of an old block, in order.
* `SplitOf.subdivides`, `SplitOf.rewired`: the two descriptions.
* `History.Traceable.sound`: the blocks of a history whose instructions read what reads returned.
* `splitJoins_subdivides`: the pass succeeds on such a routine, and subdivides the edges into its
  joins.
-/
namespace ProcCompiler

/-- The block of an edge counts as the jump that it splits. -/
def FlowGraph.contract (g : FlowGraph) (edges : List BlockId) (b : BlockId) : BlockId :=
  if b ∈ edges then (g.succs b).headD b else b

/-- The graph `g'` is `g` with a block of `edges` on every edge into a join, where there were `size`
blocks. -/
structure Subdivides (g : FlowGraph) (n : Needs) (size : Nat) (edges : List BlockId) (size' : Nat)
    (g' : FlowGraph) :
    Prop where
  split : ∀ t, g.IsJoin n t → ∀ p ∈ g.preds t, ∃! e, e ∈ edges ∧ g'.preds e = [p] ∧ g'.succs e = [t]
  preds_join : ∀ t, g.IsJoin n t → ∀ e, e ∈ g'.preds t ↔ e ∈ edges ∧ g'.succs e = [t]
  nodup : edges.Nodup
  new : ∀ e, e ∈ edges ↔ size ≤ e ∧ e < size'
  only : ∀ e ∈ edges, ∃ t, g.IsJoin n t ∧ ∃ p ∈ g.preds t, g'.preds e = [p] ∧ g'.succs e = [t]
  order : ∀ b, b ∈ g'.order ↔ b ∈ g.order ∨ b ∈ edges
  contracted : ∀ b < size, (g'.succs b).map (g'.contract edges) = g.succs b

/-- The blocks of `f'` are those of `f` with their jumps changed by `ρ`, and the blocks of `edges`;
the edges into a join share the registers `σ`. -/
structure Rewired (f : Routine) (g : FlowGraph) (n : Needs) (f' : Routine) (edges : List BlockId)
    (g' : FlowGraph) (ρ : BlockId → Label → Label) (σ : BlockId → Var → Reg) : Prop where
  name : f'.name = f.name
  vars : f'.vars = f.vars
  -- the jumps
  along : ∀ t, g.IsJoin n t → ∀ p ∈ g.preds t, ∃ e ∈ edges, g'.preds e = [p] ∧ g'.succs e = [t] ∧
    ρ p t = (e : Label)
  aside : ∀ b l, (∀ t : BlockId, l = (t : Label) → ¬ (g.IsJoin n t ∧ b ∈ g.preds t)) → ρ b l = l
  route : (f'.route : Label) = if (f.block entry).isComplete then (f.route : Label)
    else ρ entry f.route
  -- the blocks that are no joins
  other : ∀ b < f.blocks.size, ¬ g.IsJoin n b →
    f'.block b = { f.block b with exit := (f.block b).exit.map (·.mapLabel (ρ b)) }
  -- the joins
  params : ∀ t, g.IsJoin n t → (f'.block t).params = []
  body : ∀ t, g.IsJoin n t →
    (f'.block t).body =
      (f.block t).body.map (·.mapRead (.filled (f.block t).params fun v => some (σ t v)))
  exit : ∀ t, g.IsJoin n t → (f'.block t).exit =
    (f.block t).exit.map fun e =>
      (e.mapLabel (ρ t)).mapRead (.filled (f.block t).params fun v => some (σ t v))
  binding : ∀ t, g.IsJoin n t → ∀ v, (f'.block t).binding? v =
    ((f.block t).binding? v).or (if v ∈ n.of t then some (σ t v) else none)
  -- the new blocks and registers
  edge : ∀ e ∈ edges, ∀ t, g'.succs e = [t] → f'.block e = edgeBlock (n.of t) ((n.of t).map (σ t)) t
  regs : f.regs.toList <+: f'.regs.toList
  shared : ∀ t, g.IsJoin n t → ∀ v ∈ n.of t, ∃ r : Nat, σ t v = (r : Reg) ∧ f.regs.size ≤ r ∧
    f'.regs[r]? = some { var := v }
  distinct : ∀ t u, g.IsJoin n t → g.IsJoin n u → ∀ v ∈ n.of t, ∀ w ∈ n.of u, σ t v = σ u w →
    t = u ∧ v = w

theorem mem_edgeBlocks {base : Nat} {es : List Edge} {b : BlockId} :
    b ∈ edgeBlocks base es ↔ base ≤ b ∧ b < base + es.length := by
  simp only [edgeBlocks, List.mem_map, List.mem_range]
  constructor
  · rintro ⟨i, hi, rfl⟩
    exact ⟨Nat.le_add_right _ _, Nat.add_lt_add_left hi _⟩
  · rintro ⟨hle, hlt⟩
    obtain ⟨i, rfl⟩ := Nat.exists_eq_add_of_le hle
    exact ⟨i, Nat.lt_of_add_lt_add_left hlt, rfl⟩

theorem nodup_edgeBlocks (base : Nat) (es : List Edge) : (edgeBlocks base es).Nodup :=
  List.nodup_range.map fun _ _ => Nat.add_left_cancel

/-- What is filled depends on the parameters only. -/
theorem Operand.filled_congr {params : List Var} {σ τ : Var → Option Reg}
    (h : ∀ v ∈ params, σ v = τ v) (o : Operand) :
    o.filled params σ = o.filled params τ := by
  cases o with
  | reg r => rfl
  | stray k => rfl
  | param i =>
    cases hi : params[i]? with
    | none => simp [filled, ref, hi, Ref.fill]
    | some v => simp [filled, ref, hi, Ref.fill, h v (List.mem_of_getElem? hi)]

namespace SplitOf

variable {f f' : Routine} {n : Needs} (h : SplitOf f n f')

include h

/-! ## The graph -/

/-- The successors of an old block, in order. -/
theorem succs_old {b : BlockId} (hb : b < f.blocks.size) :
    f'.graph.succs b = (f.graph.succs b).map (f.via n b) := by
  rw [Routine.succs_graph (h.old_lt hb), Routine.succs_graph hb, h.leads_old hb, List.map_map,
    List.map_map]
  refine List.map_congr_left fun l hl => ?_
  obtain ⟨t, rfl, -, -⟩ := h.closed.target b hb l hl
  show (f.viaLabel n b (t : Label)).toNat = f.via n b (Int.toNat (t : Int))
  rw [viaLabel_natCast, Int.toNat_natCast, Int.toNat_natCast]

theorem mem_edgeBlocks {b : BlockId} :
    b ∈ edgeBlocks f.blocks.size (f.edges n) ↔ ∃ e ∈ f.edges n, b = f.edgeId n e := by
  rw [ProcCompiler.mem_edgeBlocks, ← h.size]
  constructor
  · rintro ⟨hle, hlt⟩
    exact (h.old_or_edge hlt).resolve_left (Nat.not_lt.mpr hle)
  · rintro ⟨e, he, rfl⟩
    exact ⟨le_edgeId f n e, h.edgeId_lt he⟩

theorem preds_edge {e : Edge} (he : e ∈ f.edges n) :
    f'.graph.preds (f.edgeId n e) = [e.source] := by
  have hd := FlowGraph.nodup_preds (Routine.nodup_order f') (f.edgeId n e)
  have hperm := (List.perm_ext_iff_of_nodup hd (List.nodup_singleton e.source)).mpr fun p => by
    rw [h.mem_preds_edge he, List.mem_singleton]
  exact List.perm_singleton.mp hperm

/-- A new block taken for its jump leads where the jump led. -/
theorem contract_via {b t : BlockId} (ht : t < f.blocks.size) :
    f'.graph.contract (edgeBlocks f.blocks.size (f.edges n)) (f.via n b t) = t := by
  unfold Routine.via FlowGraph.contract
  split
  · rename_i he
    rw [if_pos (h.mem_edgeBlocks.mpr ⟨_, he, rfl⟩), h.succs_edge he]
    rfl
  · rw [if_neg]
    intro hm
    exact Nat.not_lt.mpr (ProcCompiler.mem_edgeBlocks.mp hm).1 ht

/-- The edges into joins are subdivided. -/
theorem subdivides :
    Subdivides f.graph n f.blocks.size
      (edgeBlocks f.blocks.size (f.edges n)) f'.blocks.size f'.graph where
  split t ht p hp := by
    have he : (⟨p, t⟩ : Edge) ∈ f.edges n := h.mem_edges.mpr ⟨ht, hp⟩
    refine ⟨f.edgeId n ⟨p, t⟩,
      ⟨h.mem_edgeBlocks.mpr ⟨_, he, rfl⟩, h.preds_edge he, h.succs_edge he⟩, ?_⟩
    rintro c ⟨hc, hpc, hsc⟩
    obtain ⟨⟨q, u⟩, hx, rfl⟩ := h.mem_edgeBlocks.mp hc
    rw [h.preds_edge hx] at hpc
    rw [h.succs_edge hx] at hsc
    cases hpc
    cases hsc
    rfl
  preds_join t ht e := by
    rw [h.mem_preds_join ht, h.mem_edgeBlocks]
    constructor
    · rintro ⟨q, hq, rfl⟩
      have he : (⟨q, t⟩ : Edge) ∈ f.edges n := h.mem_edges.mpr ⟨ht, hq⟩
      exact ⟨⟨_, he, rfl⟩, h.succs_edge he⟩
    · rintro ⟨⟨⟨q, u⟩, hx, rfl⟩, hs⟩
      rw [h.succs_edge hx] at hs
      cases hs
      exact ⟨q, (h.mem_edges.mp hx).2, rfl⟩
  nodup := nodup_edgeBlocks _ _
  new e := by rw [ProcCompiler.mem_edgeBlocks, h.size]
  only e he := by
    obtain ⟨x, hx, rfl⟩ := h.mem_edgeBlocks.mp he
    obtain ⟨hj, hp⟩ := h.mem_edges.mp hx
    exact ⟨x.target, hj, x.source, hp, h.preds_edge hx, h.succs_edge hx⟩
  order b := by
    rw [h.closed'.mem_order, h.reach_iff, h.closed.mem_order, h.mem_edgeBlocks]
    exact or_congr_left ⟨fun hb => hb.2, fun hb =>
      ⟨h.closed.lt_of_mem_order (h.closed.mem_order.mpr hb), hb⟩⟩
  contracted b hb := by
    rw [h.succs_old hb, List.map_map]
    refine (List.map_congr_left fun t ht => ?_).trans (List.map_id _)
    exact h.contract_via (h.closed.succ_mem ht).2

/-! ## The blocks -/

theorem shared_spec {t : BlockId} (ht : f.graph.IsJoin n t) {v : Var} (hv : v ∈ n.of t) :
    ∃ r : Nat, f.shared n t v = (r : Reg) ∧ f.regs.size ≤ r ∧ f'.regs[r]? = some { var := v } := by
  have hs : (⟨t, v⟩ : Site) ∈ f.sites n :=
    FlowGraph.mem_joinSites.mpr ⟨h.isJoin_mem_order ht, ht, hv⟩
  refine ⟨_, rfl, Nat.le_add_right _ _, ?_⟩
  have hi : (f.sites n)[(f.sites n).idxOf ⟨t, v⟩]? = some ⟨t, v⟩ := by
    rw [List.getElem?_eq_getElem (List.idxOf_lt_length_iff.mpr hs), List.getElem_idxOf]
  rw [← Array.getElem?_toList, h.split.regs, ← Array.length_toList,
    List.getElem?_append_right (Nat.le_add_right _ _), Nat.add_sub_cancel_left,
    List.getElem?_map, hi]
  rfl

/-- No register is shared by two joins, or for two variables of one. -/
theorem shared_inj {t u : BlockId} (ht : f.graph.IsJoin n t) {v w : Var} (hv : v ∈ n.of t)
    (heq : f.shared n t v = f.shared n u w) : t = u ∧ v = w := by
  have hs : (⟨t, v⟩ : Site) ∈ f.sites n :=
    FlowGraph.mem_joinSites.mpr ⟨h.isJoin_mem_order ht, ht, hv⟩
  exact Site.mk.inj ((List.idxOf_inj hs).mp (Nat.add_left_cancel (Int.ofNat.inj heq)))

/-- A join knows all its operands. -/
theorem known_join {t : BlockId} (ht : f.graph.IsJoin n t) (hb : (f.block t).Sound) :
    (f'.block t).Known :=
  ((h.filled_join ht hb.nodup).tight (hb.tight.mapLabel _)).known (h.params_join ht hb.nodup)

/-- What a join waited for it reads from the shared registers. -/
theorem filled_shared {t : BlockId} (ht : f.graph.IsJoin n t) :
    Operand.filled (f.block t).params (f.joinInto n t) =
      Operand.filled (f.block t).params fun v => some (f.shared n t v) :=
  funext (Operand.filled_congr fun _ hv => if_pos (h.mem_of_param (h.isJoin_mem_order ht) hv))

/-- The blocks change as described. -/
theorem rewired (hsound : ∀ b, (f.block b).Sound) :
    Rewired f f.graph n f' (edgeBlocks f.blocks.size (f.edges n))
    f'.graph (f.viaLabel n) (f.shared n) where
  name := h.split.name
  vars := h.split.vars
  along t ht p hp := by
    have he : (⟨p, t⟩ : Edge) ∈ f.edges n := h.mem_edges.mpr ⟨ht, hp⟩
    refine ⟨f.edgeId n ⟨p, t⟩, h.mem_edgeBlocks.mpr ⟨_, he, rfl⟩, h.preds_edge he,
      h.succs_edge he, ?_⟩
    rw [viaLabel_natCast, Routine.via, if_pos he]
  aside b l hl := by
    unfold Routine.viaLabel reroute
    cases hi : splitIndex? (f.edges n) b l with
    | none => rfl
    | some i =>
      obtain ⟨hlt, he, -⟩ := List.findIdx?_eq_some_iff_getElem.mp hi
      obtain ⟨rfl, rfl⟩ := of_decide_eq_true he
      exact absurd (h.mem_edges.mp (List.getElem_mem hlt)) (hl _ rfl)
  route := h.split.route
  other b hb hj := h.block_other hb hj
  params t ht := h.params_join ht (hsound t).nodup
  body t ht := by
    rw [(h.filled_join ht (hsound t).nodup).body_eq (h.known_join ht (hsound t))]
    exact congrArg (fun fill => (f.block t).body.map (·.mapRead fill)) (h.filled_shared ht)
  exit t ht := by
    rw [(h.filled_join ht (hsound t).nodup).exit_eq (h.known_join ht (hsound t)), Block.mapLabel,
      Option.map_map]
    exact congrArg
      (fun fill => (f.block t).exit.map fun e => (e.mapLabel (f.viaLabel n t)).mapRead fill)
      (h.filled_shared ht)
  binding t ht v := h.binding?_join ht (hsound t).nodup v
  edge e he t ht := by
    obtain ⟨x, hx, rfl⟩ := h.mem_edgeBlocks.mp he
    rw [h.succs_edge hx] at ht
    cases ht
    exact h.block_edge hx
  regs := ⟨_, h.split.regs.symm⟩
  shared t ht v hv := h.shared_spec ht hv
  distinct t u ht _ v hv w _ heq := h.shared_inj ht hv heq

end SplitOf

/-! ## Traceable histories -/

namespace Block

/-- A block waits only for what it read. -/
theorem Grown.exists_read {b : Block} {edits : List Edit} (h : b.Grown edits) {v : Var}
    (hv : v ∈ b.params) :
    ∃ o, .read v o ∈ edits := by
  induction h with
  | empty => cases hv
  | @edit b b' edits e h he ih =>
    have hold : v ∈ b.params → ∃ o, .read v o ∈ edits ++ [e] := fun hb =>
      (ih hb).imp fun o ho => List.mem_append_left _ ho
    cases he with
    | read w =>
      rcases b.read_cases w with hr | ⟨-, hr⟩ <;> rw [hr] at hv
      · exact hold hv
      · rcases List.mem_append.mp hv with hv | hv
        · exact hold hv
        · rw [List.mem_singleton.mp hv]
          exact ⟨_, List.mem_append_right _ (List.mem_singleton.mpr rfl)⟩
    | bind hopen w r => exact hold hv
    | add hopen x => exact hold (by cases x <;> exact hv)

theorem sound_ret : Sound { exit := some .ret } where
  nodup := List.nodup_nil
  nonneg _ hv := by cases hv
  body _ ha := by cases ha
  exit _ he o ho := by cases he; cases ho

theorem Sound.redirectReturn {b : Block} (h : b.Sound) (x : BlockId) :
    (b.redirectReturn x).Sound := by
  by_cases hr : b.exit = some .ret
  · refine ⟨by simpa using h.nodup, by simpa using h.nonneg, fun a ha o ho => ?_,
      fun e he o ho => ?_⟩
    · unfold Fits
      rw [params_redirectReturn]
      exact h.body a (by simpa using ha) o ho
    · rw [exit_redirectReturn_ret hr] at he
      cases he
      cases ho
  · rw [redirectReturn_of_ne hr]
    exact h

end Block

/-- A read that was answered: the variable and the operand that stands for it in the block. -/
structure Lookup where
  block : Label
  var : Var
  operand : Operand

/-- The read that a call with its answer is. -/
def lookup? : BuildCall × Answer → Option Lookup
  | (.read b v, .operand o) => some ⟨b, v, o⟩
  | _ => none

/-- The instruction that a call with its answer added, and where. -/
def added? : BuildCall × Answer → Option (Label × Instr Reg Operand Label)
  | (.add b x, .done) => some (b, x)
  | _ => none

namespace History

def lookups (h : History) : List Lookup := h.log.filterMap lookup?

def added (h : History) : List (Label × Instr Reg Operand Label) := h.log.filterMap added?

/-- The variables that are read exist, and an instruction reads only what a read of its block
returned. -/
structure Traceable (h : History) : Prop where
  allocated : ∀ l ∈ h.lookups, 0 ≤ l.var ∧ l.var < h.routine.vars.size
  operand : ∀ a ∈ h.added, ∀ o ∈ a.2.read?, ∃ l ∈ h.lookups, l.block = a.1 ∧ l.operand = o

variable {h : History} {p : BlockId}

theorem mem_edits_read {v : Var} {o : Operand} : .read v o ∈ h.edits p ↔ ⟨p, v, o⟩ ∈ h.lookups := by
  rw [edits, lookups, List.mem_filterMap, List.mem_filterMap]
  refine exists_congr fun ⟨c, a⟩ => and_congr_right fun _ => ?_
  cases c <;> cases a <;> simp [edit?, lookup?]

theorem mem_edits_add {x : Instr Reg Operand Label} :
    .add x ∈ h.edits p ↔ ((p : Label), x) ∈ h.added := by
  rw [edits, added, List.mem_filterMap, List.mem_filterMap]
  refine exists_congr fun ⟨c, a⟩ => and_congr_right fun _ => ?_
  cases c <;> cases a <;> simp [edit?, added?]

end History

/-- The blocks of a traceable history are sound. -/
theorem History.Traceable.sound {name : String} {calls : List BuildCall}
    (h : (History.of name calls).Traceable) (p : BlockId) :
    ((History.of name calls).routine.block p).Sound := by
  have hgrown := History.grown name calls p
  have hfits : ∀ x ∈ ((History.of name calls).routine.block p).code, ∀ o, x.read? = some o →
      ((History.of name calls).routine.block p).Fits o := by
    intro x hx o ho
    rw [hgrown.code, List.mem_filterMap] at hx
    obtain ⟨e, he, hxe⟩ := hx
    cases e with
    | read v o => cases hxe
    | bind v r => cases hxe
    | add y =>
      cases hxe
      obtain ⟨⟨b, v, q⟩, hl, rfl, rfl⟩ := h.operand _ (mem_edits_add.mp he) o ho
      have hread := mem_edits_read.mpr hl
      cases q with
      | reg r => simp [Block.Fits, Operand.ref]
      | stray k => simp [Block.Fits, Operand.ref]
      | param i => simp [Block.Fits, Operand.ref, hgrown.param hread]
  refine ⟨hgrown.nodup, fun v hv => ?_, fun a ha o ho => hfits _ (Block.action_mem_code ha) o ho,
    fun e he o ho => hfits _ (Block.exit_mem_code he) o ho⟩
  obtain ⟨o, ho⟩ := hgrown.exists_read hv
  exact (h.allocated _ (mem_edits_read.mp ho)).1

/-- A routine from a traceable history, perhaps with an exit added. -/
inductive Routine.Prepared : Routine → Prop where
  | built {name : String} {calls : List BuildCall} (h : (History.of name calls).Traceable) :
      Prepared (History.of name calls).routine
  | addExit {f : Routine} {g : FlowGraph} (h : Prepared f) (hg : f.analyze = .ok g) :
      Prepared (f.addExit g).1

theorem Routine.Prepared.sound {f : Routine} (h : f.Prepared) (b : BlockId) :
    (f.block b).Sound := by
  induction h generalizing b with
  | built h => exact h.sound b
  | @addExit f g _ _ ih =>
    rcases f.block_addExit_cases g b with (hb | hb) | hb <;> rw [hb]
    · exact ih b
    · exact (ih b).redirectReturn _
    · exact Block.sound_ret

/-- Splitting the joins of a routine with a flow graph succeeds, and so does taking the graph anew.
Every edge into a join is subdivided by one new block and nothing else is added; the old blocks
change in their jumps only, except that a join reads shared registers in place of its parameters. -/
theorem splitJoins_subdivides {f : Routine} {g : FlowGraph} (hf : f.Prepared)
    (hg : f.analyze = .ok g) :
    ∃ n f' edges g', f.needs g = .ok n ∧ f.splitJoins g n = .ok (f', edges) ∧ f'.analyze = .ok g' ∧
      Subdivides g n f.blocks.size edges f'.blocks.size g' ∧
        ∃ ρ σ, Rewired f g n f' edges g' ρ σ := by
  obtain ⟨n, hn⟩ := Routine.exists_needs (f := f) (g := g) fun b _ v hv => (hf.sound b).nonneg v hv
  have hc := Routine.closed_of_analyze hg
  obtain rfl := Routine.eq_graph_of_analyze hg
  obtain ⟨f', hs, -⟩ := splitJoins_spec hc (Routine.nodup_sites hn)
  obtain ⟨hsplit, -⟩ := Routine.splitOf_of_splitJoins hg hn hs
  exact ⟨n, f', _, f'.graph, hn, hs, hsplit.closed'.analyze_eq, hsplit.subdivides, f.viaLabel n,
    f.shared n, hsplit.rewired hf.sound⟩

/-- Two joins: block 1 jumps to itself, block 2 branches twice to block 3, and the open entry goes
on to block 1. -/
def knotCalls : List BuildCall :=
  [.newVar "x", .newVar "y", .createBlock, .createBlock, .createBlock, .createBlock, .createBlock,
    .read 1 0, .add 1 (.exit (.branch (.param 0) 1 2)),
    .read 2 1, .write 2 0, .add 2 (.action (.move 0 (.param 0))),
    .add 2 (.exit (.branch (.param 0) 3 3)), .read 3 0, .add 3 (.exit (.branch (.param 0) 1 4)),
    .read 4 1, .add 4 (.exit (.branch (.param 0) 3 5)), .add 5 (.exit .ret)]

def knotRoutine : Routine := (History.of "knot" knotCalls).routine

/-- The three edges into block 1 and the two into block 3 are split. -/
theorem splitJoins_subdivides_knot :
    knotRoutine.Prepared ∧ ∃ g n f' g', knotRoutine.analyze = .ok g ∧
    knotRoutine.needs g = .ok n ∧ g.IsJoin n 1 ∧ g.IsJoin n 3 ∧
    knotRoutine.splitJoins g n = .ok (f', [6, 7, 8, 9, 10]) ∧ f'.analyze = .ok g' ∧
    Subdivides g n 6 [6, 7, 8, 9, 10] f'.blocks.size g' ∧
    ∃ ρ σ, Rewired knotRoutine g n f' [6, 7, 8, 9, 10] g' ρ σ := by
  have hf : knotRoutine.Prepared := .built ⟨by decide +kernel, by decide +kernel⟩
  have hrun : (do
      let g ← knotRoutine.analyze
      let n ← knotRoutine.needs g
      let r ← knotRoutine.splitJoins g n
      return decide (g.IsJoin n 1 ∧ g.IsJoin n 3 ∧ r.2 = [6, 7, 8, 9, 10]) :
      Except Violation Bool) = .ok true := by
    decide +kernel
  obtain ⟨g, hg, hrun⟩ := ok_of_bind hrun
  obtain ⟨n, hn, hrun⟩ := ok_of_bind hrun
  obtain ⟨⟨f', edges⟩, hs, hrun⟩ := ok_of_bind hrun
  obtain ⟨h1, h3, rfl⟩ := of_decide_eq_true (Except.ok.inj hrun)
  obtain ⟨m, f₂, es, g', hm, hs', hg', hsub, hrew⟩ := splitJoins_subdivides hf hg
  obtain rfl := Except.ok.inj (hn.symm.trans hm)
  obtain ⟨rfl, rfl⟩ := Prod.mk.inj (Except.ok.inj (hs.symm.trans hs'))
  exact ⟨hf, g, n, f', g', hg, hn, h1, h3, hs, hg', hsub, hrew⟩

end ProcCompiler
