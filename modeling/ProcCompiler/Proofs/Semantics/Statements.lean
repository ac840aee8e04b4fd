import ProcCompiler.Proofs.Compilation.Procedures
import ProcCompiler.Proofs.Semantics.Code
/-!
# From statements to listings

A body does the same as the listings of its plan, statement by statement.

* `follows_statements`: the listings follow the statements.
-/
namespace ProcCompiler

variable {V W : Type} {table : ForeignTable} {x : ProcDecl} {f : Routine} {slots : List Slot}
  {P : Plan}

theorem ForeignTable.name_lookup? {name : String} {i : Nat} (h : table.lookup? name = some i) :
    table.name (i : FuncId) = name := by
  obtain ⟨hlt, hi, -⟩ := List.idxOf?_eq_some_iff.mp h
  show table.names.getD i "" = name
  rw [List.getD_eq_getElem?_getD, List.getElem?_eq_getElem hlt, hi]
  rfl

/-- The id of a declared function has its name. -/
theorem Planned.name_func (h : Planned table x f slots P) {name : String}
    (hn : name ∈ table.names) :
    table.name (P.func name) = name := by
  obtain ⟨i, hi⟩ := Option.isSome_iff_exists.mp (ForeignTable.lookup?_isSome.mpr hn)
  rw [h.func name i hi, ForeignTable.name_lookup? hi]

namespace Plan

theorem Acts.step {I : Interp V W} {fnName : FuncId → String} {q : Point} {s s' : Store Var V W}
    {a : Action Var Var} {event : Option (Event V)} (h : P.Acts q a)
    (ha : a.exec I fnName s = some (event, s')) :
    (blockMachine I fnName P.sketch).step ⟨q, s⟩ = .go event ⟨next q, s'⟩ := blockStep_action h ha

theorem Leaves.step {I : Interp V W} {fnName : FuncId → String} {q : Point} {s : Store Var V W}
    {e : Exit Var Label} (h : P.Leaves q e) :
    (blockMachine I fnName P.sketch).step ⟨q, s⟩ = leaveBlock I s e :=
  blockStep_exit (List.getElem?_eq_none (Nat.le_of_eq h.1)) h.2

end Plan

/-- The statements to come stand at the point, and the variables have the same values. -/
structure AtPoint (x : ProcDecl) (P : Plan) (s : SourceState V W) (l : BlockState Var V W) :
    Prop where
  follows : P.Follows s.rest (some l.point)
  inside : s.rest <:+ x.body
  mem : ∀ name ∈ P.names, l.store.mem (P.var name) = s.store.mem name
  world : l.store.world = s.store.world

namespace AtPoint

/-- A variable gets the same value on both sides. -/
theorem mem_update {s : String → V} {l : Var → V} (h : ∀ name ∈ P.names, l (P.var name) = s name)
    (x : String) (v : V) :
    ∀ name ∈ P.names, Function.update l (P.var x) v (P.var name) = Function.update s x v name :=
  fun name hn => update_renamed (Plan.var_inj hn).mp (h name hn) v

variable {I : Interp V W} {s : SourceState V W} {l : BlockState Var V W}

/-- A jump to a label leads to the start of its block. -/
theorem answers_jump (h : AtPoint x P s l) (hp : Planned table x f slots P)
    (hl : Stmt.LabelsDefined x.body) {stmt : Stmt} {rest : List Stmt}
    (hrest : s.rest = stmt :: rest) (label : String) (hu : label ∈ stmt.uses) {e : Exit Var Label}
    (hleave : P.Leaves l.point e) (he : e.follow I l.store.mem = some (P.block label : Label))
    (hstep : (sourceMachine I x.body).step s = jumpAfter x.body label s.store) :
    (sourceMachine I x.body).Answers (blockMachine I table.name P.sketch) (AtPoint x P)
      (fun _ => 0) s l := by
  obtain ⟨target, ha⟩ := hl.exists_after (hrest ▸ h.inside) hu
  rw [jumpAfter, ha] at hstep
  have hstep' : (blockMachine I table.name P.sketch).step l =
      .go none { point := P.start label, store := l.store } := by
    refine hleave.step.trans ?_
    rw [leaveBlock, he]
    rfl
  exact Machine.answers_of_step hstep hstep'
    ⟨Plan.follows_after hp.follows ha, Stmt.after_suffix ha, h.mem, h.world⟩

end AtPoint

/-- The listings follow the statements. -/
theorem follows_statements (I : Interp V W) (hp : Planned table x f slots P)
    (hl : Stmt.LabelsDefined x.body)
    (hc : ∀ fn var, .call fn var ∈ x.body → fn.name ∈ table.names) :
    (sourceMachine I x.body).Follows (blockMachine I table.name P.sketch)
      (AtPoint x P) fun _ => 0 := by
  rintro ⟨rest, s⟩ ⟨q, l⟩ h
  have hf : P.Follows rest (some q) := h.follows
  have hm : ∀ name ∈ P.names, l.mem (P.var name) = s.mem name := h.mem
  have hw : l.world = s.world := h.world
  cases rest with
  | nil =>
    exact Machine.answers_of_halt rfl ((hf q rfl).step.trans rfl) hw
  | cons stmt rest =>
    have hrest : rest <:+ x.body := (List.suffix_cons stmt rest).trans h.inside
    cases stmt with
    | label id =>
      exact Machine.answers_of_step rfl ((hf.1 q rfl).step.trans rfl) ⟨hf.2, hrest, hm, hw⟩
    | move dst src =>
      obtain ⟨q', hq, hn, ha, hf⟩ := hf
      cases hq
      refine Machine.answers_of_step rfl (ha.step rfl) ⟨hf, hrest, ?_, hw⟩
      rw [Store.mem_set, Store.mem_set, hm _ hn.2]
      exact AtPoint.mem_update hm dst.name _
    | call fn var =>
      obtain ⟨q', hq, hn, ha, hf⟩ := hf
      cases hq
      have hname := hp.name_func (hc fn var (h.inside.subset (by simp)))
      have hexec :
          (Action.call (P.func fn.name) (P.var var.name) (P.var var.name)).exec I table.name l =
          some (some { fn := fn.name, value := s.mem var.name },
            l.call I fn.name (P.var var.name) (s.mem var.name)) := by
        rw [Action.exec, hname, hm _ hn]
      refine Machine.answers_of_step rfl (ha.step hexec) ⟨hf, hrest, ?_, ?_⟩
      · rw [Store.mem_call, Store.mem_call, hw]
        exact AtPoint.mem_update hm var.name _
      · rw [Store.world_call, Store.world_call, hw]
    | goto target =>
      obtain ⟨q', hq, hleave, -⟩ := hf
      cases hq
      exact h.answers_jump hp hl rfl target.name (List.mem_singleton.mpr rfl) hleave rfl rfl
    | branch cond yes no =>
      obtain ⟨q', hq, hn, hleave, -⟩ := hf
      cases hq
      refine h.answers_jump hp hl rfl (if I.holds (s.mem cond.name) then yes.name
        else no.name) ?_ hleave ?_ rfl
      · split
        · exact List.mem_cons_self ..
        · exact List.mem_cons_of_mem _ (List.mem_singleton.mpr rfl)
      · simp only [Exit.follow, hm _ hn]
        split <;> rfl
    | ret span =>
      obtain ⟨q', hq, hleave, -⟩ := hf
      cases hq
      exact Machine.answers_of_halt rfl (hleave.step.trans rfl) hw
    | unknown => exact hf.elim

end ProcCompiler
