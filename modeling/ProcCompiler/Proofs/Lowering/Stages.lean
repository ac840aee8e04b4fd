import ProcCompiler.Lowering
import ProcCompiler.Proofs.Lowering.Arguments
import ProcCompiler.Proofs.Lowering.SingleExit
import ProcCompiler.Proofs.Lowering.Transit
import ProcCompiler.Proofs.Lowering.Verified
import ProcCompiler.Syntax.Input
/-!
# The stages of a successful lowering

`Stages` holds the routines, graphs and needs that a lowering with a result went through, whatever
routine it started from. Nothing is asked of that routine: its entry may hold code, its operands may
be any. What is known of each stage then comes from its success. Binding arguments changes the entry
only, and delivery changes operands and bindings only, so the jumps of the final routine are those
of the graph that was laid out.

* `lower_cases`, `exists_stages`: a lowering with a result has its stages.
* `sameShape_run`: what delivery leaves alone.
* `known_of_layout`: a layout with a result met no parameter.
* `Stages.analyze_final`: the graph of the final routine.
* `Stages.verify_ok`: verification accepts the code.
-/
namespace ProcCompiler

open Routine

/-- What a successful lowering of `f` to `F` went through: the routine with one exit (`single`),
with split joins (`split`) and with bound arguments (`bound`), each with its graph. -/
structure Stages (f : Routine) (slots : List Slot) (F : Routine) (l : Lowered) where
  built : FlowGraph
  single : Routine
  singleGraph : FlowGraph
  needs : Needs
  split : Routine
  graph : FlowGraph
  bound : Routine
  analyze_built : f.analyze = .ok built
  addExit_eq : f.addExit built = (single, l.exit)
  analyze_single : single.analyze = .ok singleGraph
  needs_eq : single.needs singleGraph = .ok needs
  splitJoins_eq : single.splitJoins singleGraph needs = .ok (split, l.edges)
  analyze_split : split.analyze = .ok graph
  bindArguments_eq : split.bindArguments needs slots = .ok (bound, none)
  checkNeeds_eq : bound.checkNeeds graph needs = .ok ()
  deliverAll_eq : bound.deliverAll graph = .ok F
  layout_eq : F.layout graph = .ok (l.code, l.locals)

/-- Reads off a computation that lowering succeeds, and what it gives. -/
theorem exists_lowered (f : Routine) (slots : List Slot) (p : Routine → Lowered → Bool)
    (h : ((f.lower slots).toOption.any fun r => r.2.toOption.any (p r.1)) = true) :
    ∃ F l, f.lower slots = .ok (F, .ok l) ∧ p F l = true := by
  obtain ⟨⟨F, result⟩, hl, h⟩ := exists_of_any h
  obtain ⟨l, rfl, hp⟩ := exists_of_any h
  exact ⟨F, l, hl, hp⟩

/-- A lowering with an outcome went through its stages, or stopped where arguments were missing. -/
theorem lower_cases {f F : Routine} {slots : List Slot} {result : Except SignatureError Lowered}
    (h : f.lower slots = .ok (F, result)) :
    (∃ l, result = .ok l ∧ Nonempty (Stages f slots F l)) ∨
    ∃ e g₀ g₁ n split edges g₂, result = .error e ∧ f.analyze = .ok g₀ ∧
      (f.addExit g₀).1.analyze = .ok g₁ ∧
      (f.addExit g₀).1.needs g₁ = .ok n ∧ (f.addExit g₀).1.splitJoins g₁ n = .ok (split, edges) ∧
      split.analyze = .ok g₂ ∧ split.bindArguments n slots = .ok (F, some e) := by
  unfold lower at h
  obtain ⟨g₀, h₀, h⟩ := ok_of_bind h
  obtain ⟨g₁, h₁, h⟩ := ok_of_bind h
  obtain ⟨n, hn, h⟩ := ok_of_bind h
  obtain ⟨⟨f₂, edges⟩, hs, h⟩ := ok_of_bind h
  obtain ⟨g₂, h₂, h⟩ := ok_of_bind h
  obtain ⟨⟨f₃, missing⟩, hb, h⟩ := ok_of_bind h
  cases missing with
  | some e =>
    cases h
    exact .inr ⟨e, g₀, g₁, n, f₂, edges, g₂, rfl, h₀, h₁, hn, hs, h₂, hb⟩
  | none =>
    obtain ⟨⟨⟩, hc, h⟩ := ok_of_bind h
    obtain ⟨F', hd, h⟩ := ok_of_bind h
    obtain ⟨⟨code, locals⟩, hl, h⟩ := ok_of_bind h
    cases h
    exact .inl ⟨_, rfl, ⟨g₀, _, g₁, n, f₂, g₂, f₃, h₀, rfl, h₁, hn, hs, h₂, hb, hc, hd, hl⟩⟩

/-- A lowering with a result went through its stages. -/
theorem exists_stages {f F : Routine} {slots : List Slot} {l : Lowered}
    (h : f.lower slots = .ok (F, .ok l)) :
    Nonempty (Stages f slots F l) := by
  obtain ⟨_, hl, hs⟩ | ⟨e, _, _, _, _, _, _, he, -⟩ := lower_cases h
  · cases hl
    exact hs
  · cases he

/-! ## Graphs -/

namespace Routine

/-- A pass that split joins split the edges into all of them. -/
theorem splitOf_of_splitJoins {f f' : Routine} {g : FlowGraph} {n : Needs} {edges : List BlockId}
    (hg : f.analyze = .ok g) (hn : f.needs g = .ok n) (h : f.splitJoins g n = .ok (f', edges)) :
    SplitOf f n f' ∧ edges = edgeBlocks f.blocks.size (f.edges n) := by
  have hc := closed_of_analyze hg
  rw [eq_graph_of_analyze hg] at hn h
  obtain ⟨f₂, h₂, hspec⟩ := splitJoins_spec hc (nodup_sites hn)
  obtain ⟨rfl, rfl⟩ := Prod.mk.inj (Except.ok.inj (h.symm.trans h₂))
  exact ⟨⟨hc, hn, hspec⟩, rfl⟩

/-- The jumps of a routine are all that its graph depends on. -/
theorem Closed.analyze_of_leads {f f' : Routine} (h : f.Closed)
    (hsize : f'.blocks.size = f.blocks.size)
    (hcomplete : ∀ b < f.blocks.size, b ≠ entry → (f'.block b).isComplete)
    (hleads : ∀ b < f.blocks.size, f'.leads b = f.leads b) : f'.analyze = .ok f.graph := by
  have hclosed : f'.Closed := by
    refine ⟨by rw [hsize]; exact h.body, fun b hb => hcomplete b (hsize ▸ hb), fun b hb l hl => ?_⟩
    rw [hsize] at hb ⊢
    exact h.target b hb l (hleads b hb ▸ hl)
  have htable : (List.range f.blocks.size).map (fun b => (f'.leads b).map Int.toNat) =
      (List.range f.blocks.size).map fun b => (f.leads b).map Int.toNat :=
    List.map_congr_left fun b hb => by rw [hleads b (List.mem_range.mp hb)]
  rw [hclosed.analyze_eq, graph, graph, hsize, htable]

end Routine

/-! ## Arguments -/

/-- `f'` is `f` with another entry, and with more registers, which stand for slots. -/
structure Routine.Admits (f : Routine) (slots : List Slot) (f' : Routine) : Prop where
  size : f'.blocks.size = f.blocks.size
  route : f'.route = f.route
  other : ∀ b, b ≠ entry → f'.block b = f.block b
  regs : ∀ info ∈ f'.regs.toList, info ∈ f.regs.toList ∨ ∃ i < slots.length, info.slot = some i

/-- Binding arguments changes the entry and adds argument registers; the entry then goes on to the
route. -/
theorem bindArguments_admits {f f' : Routine} {n : Needs} {slots : List Slot}
    (h0 : entry < f.blocks.size) (h : f.bindArguments n slots = .ok (f', none)) :
    (f.block entry).exit = none ∧ f.Admits slots f' ∧
    (f'.block entry).exit = some (.jump f.route) := by
  obtain ⟨hopen, hargued, hexit⟩ := bindArguments_argued h0 h
  refine ⟨hopen, ⟨hargued.size, hargued.route, hargued.other, fun info hm => ?_⟩, hexit rfl⟩
  rw [hargued.regs, List.mem_append, List.mem_map] at hm
  refine hm.imp id fun ⟨v, hv, hinfo⟩ => ?_
  obtain ⟨i, hi⟩ := Option.isSome_iff_exists.mp (List.mem_filter.mp hv).2
  obtain ⟨s, hs, -⟩ := slotOf?_eq_some hi
  exact ⟨i, (List.getElem?_eq_some_iff.mp hs).1, by rw [← hinfo, hi]⟩

/-! ## Delivery -/

/-- The routines have the same registers, and jump to the same blocks. -/
structure Routine.SameShape (f f' : Routine) : Prop where
  regs : f'.regs = f.regs
  size : f'.blocks.size = f.blocks.size
  exits : ∀ b, (f'.block b).exitLabels = (f.block b).exitLabels

namespace Routine.SameShape

theorem refl (f : Routine) : f.SameShape f := ⟨rfl, rfl, fun _ => rfl⟩

theorem trans {f f' f'' : Routine} (h : f.SameShape f') (h' : f'.SameShape f'') : f.SameShape f'' :=
  ⟨h'.regs.trans h.regs, h'.size.trans h.size, fun b => (h'.exits b).trans (h.exits b)⟩

/-- A register that arrives in a block changes neither. -/
theorem receive (f : Routine) (b : BlockId) (v : Var) (r : Reg) :
    f.SameShape (f.modifyBlock b (·.receive v r)) := by
  refine ⟨rfl, by simp, fun c => ?_⟩
  by_cases hc : b = c
  · subst hc
    by_cases hlt : b < f.blocks.size
    · rw [block_modifyBlock_self hlt, Block.exitLabels_receive]
    · have hle := Nat.le_of_not_lt hlt
      simp [block, Array.getD_eq_getD_getElem?, hle]
  · rw [block_modifyBlock_ne hc]

end Routine.SameShape

namespace Transit

/-- Delivery leaves registers and jumps alone. -/
theorem sameShape_run {g : FlowGraph} {t t' : Transit} (h : t.run g = .ok t') :
    t.routine.SameShape t'.routine :=
  run_preserves (P := fun u => t.routine.SameShape u.routine) (Q := fun _ => True)
    (fun _ _ _ hu _ _ _ => hu.trans (.receive ..)) (fun _ _ _ _ => trivial) (fun _ _ _ hu _ => hu) h
      (.refl _)

end Transit

theorem sameShape_deliverAll {f F : Routine} {g : FlowGraph} (h : f.deliverAll g = .ok F) :
    f.SameShape F := by
  obtain ⟨n, t, -, ht, rfl, -⟩ := deliverAll_cases h
  exact Transit.sameShape_run ht

section

variable {f₂ f₃ F : Routine} {g : FlowGraph} {n : Needs} {slots : List Slot}
  (hg : f₂.analyze = .ok g) (hb : f₂.bindArguments n slots = .ok (f₃, none))
    (hd : f₃.deliverAll g = .ok F)

include hg hb hd

/-- Blocks lead where they led before arguments were bound, and the entry leads where it was
routed. -/
theorem exitLabels_delivered {b : BlockId} (hlt : b < f₂.blocks.size) :
    (F.block b).exitLabels = some (f₂.leads b) := by
  have hc := closed_of_analyze hg
  obtain ⟨hopen, hadmits, hexit⟩ :=
    bindArguments_admits (Nat.lt_of_lt_of_le Nat.zero_lt_two hc.body) hb
  rw [(sameShape_deliverAll hd).exits]
  by_cases h0 : b = entry
  · subst h0
    rw [Block.exitLabels, hexit, leads, hopen]
    rfl
  · obtain ⟨e, he⟩ := Option.isSome_iff_exists.mp (hc.complete b hlt h0)
    rw [hadmits.other b h0, Block.exitLabels, leads, he]
    rfl

/-- The graph along which registers were delivered is that of the routine in the end. -/
theorem analyze_delivered : F.analyze = .ok g := by
  have hc := closed_of_analyze hg
  have hsize : F.blocks.size = f₂.blocks.size :=
    (sameShape_deliverAll hd).size.trans
      (bindArguments_admits (Nat.lt_of_lt_of_le Nat.zero_lt_two hc.body) hb).2.1.size
  rw [eq_graph_of_analyze hg]
  refine hc.analyze_of_leads hsize (fun b hlt _ => ?_) fun b hlt => ?_
  · have hlabels := exitLabels_delivered hg hb hd hlt
    unfold Block.isComplete
    cases he : (F.block b).exit with
    | none => simp [Block.exitLabels, he] at hlabels
    | some e => rfl
  · rw [leads_eq, exitLabels_delivered hg hb hd hlt]
    rfl

end

/-! ## Layout -/

namespace Routine

/-- An instruction that was resolved knows its operand. -/
theorem known_of_resolve {f : Routine} {cs : List Chunk} {pc : Nat} {x : BlockInstr}
    {y : Instr Reg Reg Int} (h : f.resolve cs pc x = .ok y) {o : Operand} (ho : x.read? = some o) :
    o.known?.isSome := by
  cases o with
  | reg r => rfl
  | stray k => rfl
  | param i =>
    unfold resolve at h
    obtain ⟨z, hz, -⟩ := ok_of_bind h
    rcases x with (_ | _ | _) | (_ | _ | _) <;> cases ho <;> cases hz

theorem mem_flat_of_emit {f : Routine} {x : BlockInstr} {b : BlockId} :
    ∀ {order : List BlockId}, b ∈ order → (∀ next, x ∈ (f.block b).emit next) → x ∈ f.flat order
  | c :: order, hb, hx => by
    rw [flat_cons, List.mem_append]
    rcases List.mem_cons.mp hb with rfl | hb
    · exact .inl (hx _)
    · exact .inr (mem_flat_of_emit hb hx)

/-- Some part of an action reads what the action reads. -/
theorem exists_expand_read {a : Action Reg Operand} {o : Operand} (ho : a.read? = some o) :
    ∃ c ∈ a.expand, c.read? = some o := by
  cases a with
  | call fn out arg =>
    simp only [Action.expand]
    split
    · exact ⟨_, List.mem_singleton.mpr rfl, ho⟩
    · exact ⟨_, List.mem_cons_self, ho⟩
  | move out arg => exact ⟨_, List.mem_singleton.mpr rfl, ho⟩
  | unknown code => cases ho

/-- An exit that reads something is written. -/
theorem mem_emit_exit {b : Block} {e : Exit Operand Label} (he : b.exit = some e) {o : Operand}
    (ho : e.read? = some o) (next : Option BlockId) : .exit e ∈ b.emit next := by
  unfold Block.emit Block.emitExit
  rw [he]
  cases e with
  | branch c t u => simp
  | jump t => cases ho
  | ret => cases ho

/-- A layout with a result met no parameter. -/
theorem known_of_layout {f : Routine} {g : FlowGraph} {r : Bytecode × Nat} (h : f.layout g = .ok r)
    {b : BlockId} (hb : b ∈ g.order) : (f.block b).Known := by
  unfold layout at h
  obtain ⟨code, hcode, -⟩ := ok_of_bind h
  have hknown : ∀ x ∈ f.flat g.order, ∀ o, x.read? = some o → o.known?.isSome := by
    intro x hx o ho
    obtain ⟨i, hi⟩ := List.mem_iff_getElem?.mp hx
    obtain ⟨y, -, hy⟩ := ok_of_mapM hcode (x, i) (List.mem_zipIdx_iff_getElem?.mpr hi)
    exact known_of_resolve hy ho
  refine ⟨fun a ha o ho => ?_, fun e he o ho => ?_⟩
  · obtain ⟨c, hc, hco⟩ := exists_expand_read ho
    refine hknown (.action c) (mem_flat_of_emit hb fun next => ?_) o hco
    exact List.mem_append_left _ (List.mem_map_of_mem (List.mem_flatMap.mpr ⟨a, ha, hc⟩))
  · exact hknown (.exit e) (mem_flat_of_emit hb (mem_emit_exit he ho)) o ho

end Routine

/-! ## All stages -/

namespace Stages

variable {f F : Routine} {slots : List Slot} {l : Lowered} (s : Stages f slots F l)

theorem single_eq : s.single = (f.addExit s.built).1 := (congrArg Prod.fst s.addExit_eq).symm

/-- The joins were split as the needs ask for. -/
theorem splitOf : SplitOf s.single s.needs s.split :=
  (splitOf_of_splitJoins s.analyze_single s.needs_eq s.splitJoins_eq).1

theorem graph_eq : s.graph = s.split.graph := eq_graph_of_analyze s.analyze_split

theorem entry_lt : entry < s.split.blocks.size := s.splitOf.old_lt s.splitOf.entry_lt

theorem admits : s.split.Admits slots s.bound :=
  (bindArguments_admits s.entry_lt s.bindArguments_eq).2.1

/-- Where a block of the final routine leads. -/
theorem exitLabels_final {b : BlockId} (hb : b < s.split.blocks.size) :
    (F.block b).exitLabels = some (s.split.leads b) :=
  exitLabels_delivered s.analyze_split s.bindArguments_eq s.deliverAll_eq hb

include s

theorem size_final : F.blocks.size = s.split.blocks.size :=
  (sameShape_deliverAll s.deliverAll_eq).size.trans s.admits.size

/-- The graph that was laid out is that of the final routine. -/
theorem analyze_final : F.analyze = .ok s.graph :=
  analyze_delivered s.analyze_split s.bindArguments_eq s.deliverAll_eq

/-- The final routine can be laid out along its graph. -/
theorem layable : F.Layable s.graph.order where
  known _ hb := known_of_layout s.layout_eq hb
  exit b hb := by
    rw [s.graph_eq] at hb ⊢
    have hc := closed_of_analyze s.analyze_split
    obtain ⟨e, he, hlabels⟩ :=
      Option.map_eq_some_iff.mp (s.exitLabels_final (hc.lt_of_mem_order hb))
    refine ⟨e, he, fun k hk => ?_⟩
    obtain ⟨t, rfl, -, ht, -⟩ := hc.exists_succ hb (hlabels ▸ hk)
    exact ⟨t, ht, rfl⟩

/-- Lowering makes argument registers for the given slots only. -/
theorem slot_lt (hplain : ∀ info ∈ f.regs.toList, info.slot = none) {r : Reg} {i : Nat}
    (hr : F.slot? r = some i) : i < slots.length := by
  obtain ⟨info, hinfo, hi⟩ := Option.bind_eq_some_iff.mp hr
  cases r with
  | negSucc k => cases hinfo
  | ofNat k =>
    have hget : F.regs.toList[k]? = some info := Array.getElem?_toList.trans hinfo
    have hm := List.mem_of_getElem? hget
    rw [(sameShape_deliverAll s.deliverAll_eq).regs] at hm
    rcases s.admits.regs info hm with hm | ⟨j, hj, hslot⟩
    · rw [s.splitOf.split.regs, s.single_eq, regs_addExit, List.mem_append, List.mem_map] at hm
      rcases hm with hm | ⟨site, -, rfl⟩
      · rw [hplain info hm] at hi; cases hi
      · cases hi
    · rw [hslot] at hi
      exact Option.some.inj hi ▸ hj

theorem order_ne_nil : s.graph.order ≠ [] :=
  List.ne_nil_of_mem (s.graph_eq ▸ (closed_of_analyze s.analyze_split).entry_mem_order)

/-- The code and the number of locals are those of the layout. -/
theorem layout_final : F.placedCode s.graph.order = l.code ∧
    (F.locals (F.resolvedCode s.graph.order)).length = l.locals := by
  have h := s.layable.layout_eq.symm.trans s.layout_eq
  simpa only [Except.ok.injEq, Prod.mk.injEq] using h

/-- Verification accepts the code of a lowered routine. -/
theorem verify_ok (hplain : ∀ info ∈ f.regs.toList, info.slot = none) {p : Procedure}
    (hcode : p.code = l.code) (hlocals : p.locals = l.locals)
    (hargs : p.args.length = slots.length) : p.verify = .ok () := by
  obtain ⟨hc, hl⟩ := s.layout_final
  refine s.layable.verify_ok s.order_ne_nil (hcode.trans hc.symm) ?_ fun r i hr =>
    hargs ▸ s.slot_lt hplain hr
  rw [hlocals, hl]

end Stages

end ProcCompiler
