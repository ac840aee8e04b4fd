import ProcCompiler.Proofs.Lowering.Settled
import ProcCompiler.Proofs.Lowering.Stages
/-!
# Lowering never stops on a ready routine

Lowering a ready routine ends in one of two ways: with code, if every variable that the entry needs
has a slot, and otherwise with the names of those that have none.

* `Ready.exists_split`: the passes up to the arguments succeed.
* `Ready.lower_ok`, `Ready.lower_missing`: the two outcomes.
* `Ready.needed_entry_iff`: the entry needs what is exposed at the start of the body.
* `Ready.exists_lowers`, `Ready.exists_missing`: the outcomes in terms of exposure.
* `Lowers.verify_ok`: verification accepts the code.
-/
namespace ProcCompiler

open Routine

/-- Lowering `f` with the given slots gives the settled routine `F` and its code. The needs are `n`,
and `f₂` is the routine when its joins were split. -/
structure Lowers (f : Routine) (slots : List Slot) (n : Needs) (into : BlockId → Var → Option Reg)
    (f₂ F : Routine) : Prop where
  settled : Settled (f.addExit f.graph).1 n slots into f₂ F
  provided : ∀ v ∈ n.of entry, v ∈ slots.map Slot.var
  lower_eq : f.lower slots = .ok (F, .ok
    { code := F.placedCode f₂.graph.order
      locals := (F.locals (F.resolvedCode f₂.graph.order)).length
      exit := f.blocks.size
      edges := edgeBlocks (f.addExit f.graph).1.blocks.size ((f.addExit f.graph).1.edges n) })

theorem Settled.layable {f f₂ F : Routine} {n : Needs} {slots : List Slot}
    {into : BlockId → Var → Option Reg} (h : Settled f n slots into f₂ F) :
    F.Layable f₂.graph.order where
  known _ hb := h.known hb
  exit b hb := by
    obtain ⟨e, he, hl⟩ := h.exit_leads hb
    exact ⟨e, he, fun l hm => h.leads_mem hb (hl ▸ hm)⟩

/-- Verification accepts the code of a lowered routine. -/
theorem Lowers.verify_ok {f f₂ F : Routine} {n : Needs} {slots : List Slot}
    {into : BlockId → Var → Option Reg} (h : Lowers f slots n into f₂ F) {p : Procedure}
    (hcode : p.code = F.placedCode f₂.graph.order)
    (hlocals : p.locals = (F.locals (F.resolvedCode f₂.graph.order)).length)
    (hargs : p.args.length = slots.length) : p.verify = .ok () := by
  obtain ⟨s⟩ := exists_stages h.lower_eq
  exact s.verify_ok (regs_addExit f f.graph ▸ h.settled.ready.plain) hcode hlocals hargs

namespace Routine.Ready

variable {f : Routine} (h : f.Ready)

include h

/-- The passes up to the arguments succeed. -/
theorem exists_split : ∃ n f₂, SplitOf (f.addExit f.graph).1 n f₂ ∧
    (f.addExit f.graph).1.splitJoins (f.addExit f.graph).1.graph n = .ok (f₂,
      edgeBlocks (f.addExit f.graph).1.blocks.size ((f.addExit f.graph).1.edges n)) := by
  have hx := h.addExit
  obtain ⟨n, hn⟩ := exists_needs (f := (f.addExit f.graph).1) (g := (f.addExit f.graph).1.graph)
    fun b _ v hv => hx.nonneg b v hv
  obtain ⟨f₂, hsplit, hspec⟩ := splitJoins_spec hx.closed (nodup_sites hn)
  exact ⟨n, f₂, ⟨hx.closed, hn, hspec⟩, hsplit⟩

/-- The entry of the split routine is still bare. -/
theorem bare_split {n : Needs} {f₂ : Routine} (hs : SplitOf (f.addExit f.graph).1 n f₂) :
    (f₂.block entry).Bare := by
  have hb := h.addExit.bare
  rw [hs.block_other hs.entry_lt hs.entry_not_join]
  exact ⟨hb.params, hb.body, by simp [Block.mapLabel, hb.isOpen]⟩

/-- Arguments that were bound are bound as the entry needs them. -/
theorem staged {n : Needs} {slots : List Slot} {f₂ f₃ : Routine}
    (hs : SplitOf (f.addExit f.graph).1 n f₂) (hb : f₂.bindArguments n slots = .ok (f₃, none)) :
    Staged (f.addExit f.graph).1 n slots f₂ f₃ := by
  have hbare := h.bare_split hs
  have h0 := hs.old_lt hs.entry_lt
  have hnodup := Needs.nodup_of (nodup_sites hs.needs) entry
  refine ⟨h.addExit, hs, ?_⟩
  by_cases hslots : ∀ v ∈ n.of entry, v ∈ slots.map Slot.var
  · obtain ⟨f₄, h₄, hentered⟩ := bindArguments_ok hbare h0 hnodup hslots
    cases hb.symm.trans h₄
    exact hentered
  · obtain ⟨f₄, h₄⟩ := bindArguments_missing hbare h0 hnodup hslots
    cases hb.symm.trans h₄

/-- With slots for all that the entry needs, lowering gives code. -/
theorem lower_ok {n : Needs} {f₂ : Routine} (hs : SplitOf (f.addExit f.graph).1 n f₂)
    (hsplit : (f.addExit f.graph).1.splitJoins (f.addExit f.graph).1.graph n = .ok (f₂,
      edgeBlocks (f.addExit f.graph).1.blocks.size ((f.addExit f.graph).1.edges n)))
    {slots : List Slot} (hslots : ∀ v ∈ n.of entry, v ∈ slots.map Slot.var) :
    ∃ into F, Lowers f slots n into f₂ F := by
  obtain ⟨f₃, hbind, -⟩ := bindArguments_ok (h.bare_split hs) (hs.old_lt hs.entry_lt)
    (Needs.nodup_of (nodup_sites hs.needs) entry) hslots
  have hstaged := h.staged hs hbind
  obtain ⟨n', hn'⟩ := hstaged.exists_needs
  obtain ⟨into, F, hdeliver, hd⟩ := deliverAll_spec hstaged.deliverable hn'
  have hsettled := hstaged.settled hd
  refine ⟨_, F, hsettled, hslots, ?_⟩
  simp only [lower, h.closed.analyze_eq, h.addExit.closed.analyze_eq, hs.needs, hsplit,
    hs.closed'.analyze_eq, hbind, hstaged.checkNeeds_ok, hdeliver, hsettled.layable.layout_eq, bind,
    Except.bind, pure, Except.pure, addExit_snd]

/-- Otherwise it names what has no slot. -/
theorem lower_missing {n : Needs} {f₂ : Routine} (hs : SplitOf (f.addExit f.graph).1 n f₂)
    (hsplit : (f.addExit f.graph).1.splitJoins (f.addExit f.graph).1.graph n = .ok (f₂,
      edgeBlocks (f.addExit f.graph).1.blocks.size ((f.addExit f.graph).1.edges n)))
    {slots : List Slot} (hslots : ¬ ∀ v ∈ n.of entry, v ∈ slots.map Slot.var) :
    ∃ f', f.lower slots = .ok (f', .error { proc := f.name, missing :=
      ((n.of entry).filter fun v => (slotOf? slots v).isNone).map f.varName }) := by
  obtain ⟨f₃, hbind⟩ := bindArguments_missing (h.bare_split hs) (hs.old_lt hs.entry_lt)
    (Needs.nodup_of (nodup_sites hs.needs) entry) hslots
  have hname : f₂.name = f.name := by rw [hs.split.name, name_addExit]
  have hvar : f₂.varName = f.varName := by
    funext v
    unfold varName
    rw [hs.split.vars, vars_addExit]
  rw [hname, hvar] at hbind
  refine ⟨f₃, ?_⟩
  simp only [lower, h.closed.analyze_eq, h.addExit.closed.analyze_eq, hs.needs, hsplit,
    hs.closed'.analyze_eq, hbind, bind, Except.bind, pure, Except.pure]

end Routine.Ready

/-! ## What the entry needs -/

/-- Some path of jumps from the block reaches one that waits for the variable, and no block before
it on the path binds the variable. -/
inductive Routine.Exposed (f : Routine) : BlockId → Var → Prop where
  | here {b : BlockId} {v : Var} (hv : v ∈ (f.block b).params) : Exposed f b v
  | there {b t : BlockId} {v : Var} {e : Exit Operand Label} (he : (f.block b).exit = some e)
      (ht : (t : Label) ∈ e.labels) (hfree : (f.block b).binding? v = none) (h : Exposed f t v) :
      Exposed f b v

namespace Routine.Ready

variable {f : Routine} (h : f.Ready)

include h

theorem exposed_of_needed {b : BlockId} {v : Var} (hn : Needed f f.graph b v) :
    (b = entry → f.Exposed f.route v) ∧ (b ≠ entry → f.Exposed b v) := by
  induction hn with
  | @param b v hb hv =>
    refine ⟨?_, fun _ => .here hv⟩
    rintro rfl
    rw [h.bare.params] at hv
    cases hv
  | @back p b v hp hfree _ ih =>
    obtain ⟨ho, hs⟩ := FlowGraph.mem_preds.mp hp
    obtain ⟨hlt, hl⟩ := h.closed.mem_succs.mp hs
    have hb := ih.2 (h.closed.succ_mem hs).1
    refine ⟨?_, fun hne => ?_⟩
    · rintro rfl
      rw [leads, h.bare.isOpen, List.mem_singleton] at hl
      rwa [← Int.ofNat.inj hl]
    · obtain ⟨e, he⟩ := Option.isSome_iff_exists.mp (h.closed.complete p hlt hne)
      rw [leads, he] at hl
      exact .there he hl hfree hb

theorem needed_of_exposed {b : BlockId} {v : Var} (hx : f.Exposed b v) (hb : b ∈ f.graph.order) :
    Needed f f.graph b v := by
  induction hx with
  | here hv => exact .param hb hv
  | @there b t v e he ht hfree _ ih =>
    have hs : t ∈ f.graph.succs b :=
      h.closed.mem_succs.mpr ⟨h.closed.lt_of_mem_order hb, by rw [leads, he]; exact ht⟩
    exact .back (FlowGraph.mem_preds.mpr ⟨hb, hs⟩) hfree (ih (h.closed.succ_mem_order hb hs))

/-- The entry needs what is exposed at the start of the body. -/
theorem needed_entry_iff {v : Var} : Needed f f.graph entry v ↔ f.Exposed f.route v := by
  refine ⟨fun hn => (h.exposed_of_needed hn).1 rfl, fun hx => ?_⟩
  exact .back (FlowGraph.mem_preds.mpr ⟨h.closed.entry_mem_order, h.route_mem_succs⟩) (h.unbound v)
    (h.needed_of_exposed hx h.route_mem_order)

theorem mem_of_entry {n : Needs} {f₂ : Routine} (hs : SplitOf (f.addExit f.graph).1 n f₂)
    {v : Var} :
    v ∈ n.of entry ↔ f.Exposed f.route v := by
  rw [mem_of_iff hs.needs, h.closed.needed_addExit, h.needed_entry_iff]

/-- With slots for all that is exposed at the start of the body, lowering gives code. -/
theorem exists_lowers {slots : List Slot}
    (hslots : ∀ v, f.Exposed f.route v → v ∈ slots.map Slot.var) :
    ∃ n into f₂ F, Lowers f slots n into f₂ F := by
  obtain ⟨n, f₂, hs, hsplit⟩ := h.exists_split
  obtain ⟨into, F, hl⟩ := h.lower_ok hs hsplit fun v hv => hslots v ((h.mem_of_entry hs).mp hv)
  exact ⟨n, into, f₂, F, hl⟩

/-- Otherwise lowering names what has no slot, each variable once. -/
theorem exists_missing {slots : List Slot}
    (hslots : ¬ ∀ v, f.Exposed f.route v → v ∈ slots.map Slot.var) :
    ∃ f', ∃ vs : List Var, f.lower slots = .ok
      (f', .error { proc := f.name, missing := vs.map f.varName }) ∧
      vs.Nodup ∧ ∀ v, v ∈ vs ↔ f.Exposed f.route v ∧ v ∉ slots.map Slot.var := by
  obtain ⟨n, f₂, hs, hsplit⟩ := h.exists_split
  have hmiss : ¬ ∀ v ∈ n.of entry, v ∈ slots.map Slot.var := fun hall =>
    hslots fun v hv => hall v ((h.mem_of_entry hs).mpr hv)
  obtain ⟨f', hl⟩ := h.lower_missing hs hsplit hmiss
  refine ⟨f', _, hl, (Needs.nodup_of (nodup_sites hs.needs) entry).filter _, fun v => ?_⟩
  rw [List.mem_filter, h.mem_of_entry hs, Option.isNone_iff_eq_none, slotOf?_eq_none]

end Routine.Ready

end ProcCompiler
