import Mathlib.Logic.Relation
import ProcCompiler.Proofs.Block.Arrivals
import ProcCompiler.Proofs.Lowering.Complete
import ProcCompiler.Proofs.Lowering.OwnBindings
import ProcCompiler.Proofs.Routine.Session
/-!
# Delivery in any order

Delivery takes its queue from the front, and nothing depends on that. What is known of delivery
after every step does not mention the order of the queue, each step uses up one delivery or one site
that waits, and what has arrived when the queue is empty is given by the graph alone. A block is
determined by what arrived in it, so every order of the deliveries leaves the same routine.

* `Transit.Step`: one delivery is made, whichever of the queue it is.
* `Transit.wellFounded_step`: there is no endless run.
* `Delivered.unique`: what arrives determines the routine.
* `Staged.tight`: the blocks of a routine that is ready for delivery read only what they wait for or
  know.
* `deliverAll_any_order`: no order fails, and all orders leave the same routine.
-/
namespace ProcCompiler

open Routine

/-! ## Runs -/

namespace Transit

/-- A delivery is taken out of the queue, wherever it stands there, and made. -/
inductive Step (g : FlowGraph) (t : Transit) : Transit → Prop where
  | make {before after : List Delivery} {d : Delivery} {t' : Transit}
      (hq : t.queue = before ++ d :: after)
      (h : (g.succs d.site.block).foldlM (deliver g d) { t with queue := before ++ after } =
        .ok t') : Step g t t'

variable {f : Routine} {g : FlowGraph} {t t' : Transit}

/-- A step takes one delivery, and each one that it adds stands for a site that waited. -/
theorem Step.measure_eq (h : Step g t t') : t.measure = t'.measure + 1 := by
  cases h with
  | make hq h =>
    rw [foldlM_deliver_measure h, measure, measure, hq]
    simp only [List.length_append, List.length_cons]
    omega

theorem wellFounded_step (g : FlowGraph) : WellFounded fun t' t => Step g t t' :=
  Subrelation.wf (fun h => Nat.lt_of_succ_le (Nat.le_of_eq h.measure_eq.symm))
    (InvImage.wf Transit.measure Nat.lt_wfRel.wf)

theorem mem_takeOut {before after : List Delivery} {d : Delivery}
    (hq : t.queue = before ++ d :: after) (e : Delivery) :
    e ∈ t.queue ↔ e = d ∨ e ∈ before ++ after := by
  simp only [hq, List.mem_append, List.mem_cons, or_left_comm]

theorem Inv.step (hf : Deliverable f g) (h : Inv f g none t) (hs : Step g t t') :
    Inv f g none t' := by
  cases hs with
  | make hq hmade =>
    obtain ⟨t₁, h₁, hi⟩ := h.make hf _ _ (mem_takeOut hq)
    cases hmade.symm.trans h₁
    exact hi

theorem Inv.steps (hf : Deliverable f g) (h : Inv f g none t)
    (hs : Relation.ReflTransGen (Step g) t t') :
    Inv f g none t' := by
  induction hs with
  | refl => exact h
  | tail _ hs ih => exact ih.step hf hs

end Transit

/-! ## What arrives determines the routine -/

/-- A routine is determined by its blocks and tables. -/
theorem Routine.eq_of_block {f f' : Routine} (hname : f.name = f'.name) (hvars : f.vars = f'.vars)
    (hregs : f.regs = f'.regs) (hroute : f.route = f'.route)
    (hsize : f.blocks.size = f'.blocks.size)
    (hblock : ∀ b < f.blocks.size, f.block b = f'.block b) : f = f' := by
  have hblocks : f.blocks = f'.blocks := by
    refine Array.ext hsize fun b hb hb' => ?_
    simpa [block, Array.getD_eq_getD_getElem?, hb, hb'] using hblock b hb
  cases f
  cases f'
  cases hname
  cases hvars
  cases hregs
  cases hroute
  cases hblocks
  rfl

/-- Delivery has one outcome at most. -/
theorem Delivered.unique {f F F' : Routine} {g : FlowGraph}
    {into into' : BlockId → Var → Option Reg} (h : Delivered f g into F)
    (h' : Delivered f g into' F') (hn : ∀ b, (f.block b).params.Nodup)
    (ht : ∀ b, (f.block b).Tight) : F = F' := by
  have hinto : into = into' := by
    funext b v
    ext r
    rw [h.arrives, h'.arrives]
  subst hinto
  refine eq_of_block (h.name.trans h'.name.symm) (h.vars.trans h'.vars.symm)
    (h.regs.trans h'.regs.symm)
    (h.route.trans h'.route.symm) (h.size.trans h'.size.symm) fun b hb => ?_
  have hb : b < f.blocks.size := h.size ▸ hb
  exact (h.block b hb).unique (h'.block b hb) (hn b) (ht b)

/-! ## Routines that are ready for delivery -/

/-- No block reads past what it waits for. -/
theorem Staged.tight {f f₂ f₃ : Routine} {n : Needs} {slots : List Slot}
    (h : Staged f n slots f₂ f₃) (b : BlockId) :
    (f₃.block b).Tight := by
  by_cases hb : b < f₂.blocks.size
  · rcases h.kinds hb with rfl | hj | ⟨hlt, h0, hj⟩ | ⟨e, he, rfl⟩
    · exact Block.tight_jump h.entered.body h.entered.exit
    · rw [h.block_join hj]
      exact (h.split.filled_join hj (h.ready.nodup b)).tight ((h.ready.tight b).mapLabel _)
    · rw [h.block_other hlt h0 hj]
      exact (h.ready.tight b).mapLabel _
    · rw [h.block_edge he]
      exact Block.tight_edgeBlock (by simp) _
  · rw [block_of_le (by rw [h.size]; exact Nat.le_of_not_lt hb)]
    exact ⟨fun _ ha => absurd ha List.not_mem_nil, fun _ he => absurd he (Option.not_mem_none _)⟩

/-- The joins that are split are those of the routine with one exit. -/
theorem Routine.Passes.splitOf {f : Routine} {slots : List Slot} {n : Needs} {f₂ : Routine}
    (hp : f.Passes slots (.split n f₂)) : SplitOf (f.addExit f.graph).1 n f₂ := by
  cases hp with
  | joins hp hg₁ hn hs =>
    cases hp with
    | exit hg₀ =>
      cases eq_graph_of_analyze hg₀
      exact (splitOf_of_splitJoins hg₁ hn hs).1

/-- The passes up to the arguments leave a routine that is ready for delivery. -/
theorem Routine.Passes.exists_staged {f : Routine} (hf : f.Ready) {slots : List Slot} {n : Needs}
    {g : FlowGraph} {f₃ : Routine} (hp : f.Passes slots (.bound n g f₃)) :
    ∃ f₂, g = f₂.graph ∧ Staged (f.addExit f.graph).1 n slots f₂ f₃ := by
  cases hp with
  | @arguments f₂ _ _ _ hp hg hb => exact ⟨f₂, eq_graph_of_analyze hg, hf.staged hp.splitOf hb⟩

/-- When the joins of a well-formed routine are split and its arguments are bound, deliveries can be
made in any order. None can fail, there is no endless run, and a run that leaves no delivery leaves
the routine that delivery gives. -/
theorem deliverAll_any_order {f : Routine} (hf : f.WellFormed) {slots : List Slot} {n : Needs}
    {g : FlowGraph} {f₃ : Routine} (hp : f.Passes slots (.bound n g f₃)) :
    ∃ m F, f₃.needs g = .ok m ∧ f₃.deliverAll g = .ok F ∧
      WellFounded (fun t' t => Transit.Step g t t') ∧
      ∀ t, Relation.ReflTransGen (Transit.Step g) (.start f₃ g m) t →
        (∀ before d after, t.queue = before ++ d :: after → ∃ t',
          (g.succs d.site.block).foldlM (Transit.deliver g d)
          { t with queue := before ++ after } = .ok t') ∧
        (t.queue = [] → t.routine = F) := by
  obtain ⟨f₂, rfl, hstaged⟩ := hp.exists_staged (hf.growing.ready hf.closed)
  have hd := hstaged.deliverable
  obtain ⟨m, hm⟩ := hstaged.exists_needs
  obtain ⟨into, F, hF, hdelivered⟩ := deliverAll_spec hd hm
  refine ⟨m, F, hm, hF, Transit.wellFounded_step _, fun t ht => ?_⟩
  have hi := (Transit.inv_start hm).steps hd ht
  refine ⟨fun before d after hq => ?_, fun hq => ?_⟩
  · obtain ⟨t', ht', -⟩ := hi.make hd d (before ++ after) (Transit.mem_takeOut hq)
    exact ⟨t', ht'⟩
  · exact (hi.delivered hd hq).unique hdelivered hstaged.nodup_params hstaged.tight

/-- The loop: deliveries of the entry, the join, the blocks of its edges and the block after it wait
at once. -/
theorem deliverAll_any_order_loop :
    loopRoutine.WellFormed ∧ ∃ n g f₃, loopRoutine.Passes loopSlots (.bound n g f₃) ∧
    ∃ m F, f₃.needs g = .ok m ∧ f₃.deliverAll g = .ok F ∧
      WellFounded (fun t' t => Transit.Step g t t') ∧
      ∀ t, Relation.ReflTransGen (Transit.Step g) (.start f₃ g m) t →
        (∀ before d after, t.queue = before ++ d :: after → ∃ t',
          (g.succs d.site.block).foldlM (Transit.deliver g d)
          { t with queue := before ++ after } = .ok t') ∧
        (t.queue = [] → t.routine = F) := by
  obtain ⟨F, l, hl, -⟩ := exists_lowered loopRoutine loopSlots (fun _ _ => true) (by decide +kernel)
  rcases passes_of_lower hl with ⟨-, hp⟩ | ⟨⟨e, he⟩, -⟩
  · cases hp with
    | delivery hp _ _ =>
      exact ⟨wellFormed_loopRoutine, _, _, _, hp, deliverAll_any_order wellFormed_loopRoutine hp⟩
  · cases he

end ProcCompiler
