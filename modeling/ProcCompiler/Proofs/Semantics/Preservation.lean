import ProcCompiler.Proofs.Compilation.Accepted
import ProcCompiler.Proofs.Semantics.Layout
import ProcCompiler.Proofs.Semantics.Statements
/-!
# Compilation preserves what a procedure does

The stages between a procedure and its bytecode each behave as the one before: the statements, the
listings of the plan, those with an exit block, those with split edges, the blocks over registers,
the code with offsets, and the code in machine registers. So the bytecode shows the events of the
source, halts when and where the source halts, and is never stuck, whatever its locals hold at the
start.

* `Lowers.same`: the stages of lowering put together.
* `Compiles.same`: all stages of one procedure.
* `compile_preserves`: all procedures of a compiled file.
-/
namespace ProcCompiler

open Machine

/-! ## The start -/

/-- The values of the variables of a plan, by their names. -/
def Plan.mem {V : Type} (P : Plan) (env : String → V) (v : Var) : V := env (P.names.getD v.toNat "")

theorem Plan.mem_var {V : Type} {P : Plan} (env : String → V) {name : String}
    (hn : name ∈ P.names) :
    P.mem env (P.var name) = env name := by
  show env (P.names.getD (P.names.idxOf name) "") = env name
  rw [List.getD_eq_getElem?_getD, List.getElem?_eq_getElem (List.idxOf_lt_length_iff.mpr hn),
    List.getElem_idxOf]
  rfl

/-- A variable with a slot starts with the value of that argument. -/
theorem Planned.mem_start {table : ForeignTable} {x : ProcDecl} {f : Routine} {slots : List Slot}
    {P : Plan} (h : Planned table x f slots P) {V : Type} (values : Nat → V) (others : String → V)
    {v : Var} {i : Nat} (hi : slotOf? slots v = some i) :
    i < x.args.length ∧ P.mem (x.startMem values others) v = values i := by
  rw [slotOf?, h.slots, List.findIdx?_map, List.findIdx?_eq_some_iff_getElem] at hi
  obtain ⟨hlt, hv, hfirst⟩ := hi
  obtain rfl : P.var x.args[i].name.name = v := by simpa using hv
  have hidx : x.args.findIdx? (·.name.name = x.args[i].name.name) = some i := by
    rw [List.findIdx?_eq_some_iff_getElem]
    refine ⟨hlt, by simp, fun j hj he => hfirst j hj ?_⟩
    have he : x.args[j].name.name = x.args[i].name.name := by simpa using he
    simp [he]
  refine ⟨hlt, ?_⟩
  rw [Plan.mem_var _ (h.args _ (List.getElem_mem hlt)), ProcDecl.startMem, hidx]

/-! ## All stages -/

section

variable {table : ForeignTable} {x : ProcDecl} {p : Procedure} {f f₂ F : Routine}
  {slots : List Slot} {P : Plan} {n : Needs} {into : BlockId → Var → Option Reg} {V W : Type}

/-- The code of a settled routine, started with the arguments in their registers, behaves as the
listings. -/
theorem Lowers.same (h : Lowers f slots n into f₂ F) {sk : BlockId → Listing Var}
    (hs : Sketched f sk) (I : Interp V W) (fnName : FuncId → String) {vars : Var → V}
    {regs : Register → V} (world : W)
    (hregs : ∀ v i, slotOf? slots v = some i → regs (.arg i) = vars v) :
    (blockMachine I fnName sk).Same ⟨{ block := f.route, index := 0 }, ⟨vars, world⟩⟩
      (codeMachine I fnName (F.placedCode f₂.graph.order)) ⟨0, ⟨regs, world⟩⟩ := by
  -- each register starts with what its place in the machine holds
  obtain ⟨mem, hmem⟩ : ∃ mem : Reg → V, ∀ r,
      mem r = regs (F.place (F.locals (F.resolvedCode f₂.graph.order)) r) :=
    ⟨_, fun _ => rfl⟩
  have hplaced : Placed F.Owns (startPlace F into entry) vars mem := by
    refine h.settled.placed_entry fun v hv => ?_
    obtain ⟨i, hi⟩ := Option.isSome_iff_exists.mp (slotOf?_isSome.mpr (h.provided v hv))
    rw [hmem, Routine.place, h.settled.slot?_entry hv, hi]
    exact hregs v i hi
  have htracks : Tracks f₂ F ((f.addExit f.graph).1.splitSketch n (f.exitSketch sk))
      ⟨{ block := entry, index := 0 }, ⟨vars, world⟩⟩
        ⟨{ block := entry, index := 0 }, ⟨mem, world⟩⟩ :=
    h.settled.tracks_start hs.addExit h.settled.split.closed'.entry_mem_order rfl hplaced
  have hblocks := (hs.same_detours I fnName ⟨vars, world⟩).trans
    ((h.settled.follows_registers hs.addExit I fnName).same htracks)
  exact hblocks.trans (h.settled.same_placedCode I fnName hmem hblocks.safe.2)

/-- The bytecode of a procedure behaves as its statements. -/
theorem Compiles.same (h : Compiles table x p f slots P n into f₂ F) (I : Interp V W)
    (values : Nat → V) (others : String → V) (world : W) {regs : Register → V}
    (hregs : ∀ i < x.args.length, regs (.arg i) = values i) :
    (sourceMachine I x.body).Same ⟨x.body, ⟨x.startMem values others, world⟩⟩
      (codeMachine I table.name p.code) ⟨0, ⟨regs, world⟩⟩ := by
  have hstart : AtPoint x P ⟨x.body, ⟨x.startMem values others, world⟩⟩
      ⟨{ block := f.route, index := 0 }, ⟨P.mem (x.startMem values others), world⟩⟩ := by
    refine ⟨?_, List.suffix_rfl, fun name hn => Plan.mem_var (x.startMem values others) hn, rfl⟩
    rw [h.planned.route]
    exact h.planned.follows
  refine ((follows_statements I h.planned h.labels h.calls).same hstart).trans ?_
  rw [h.code]
  refine h.lowers.same ⟨h.planned.ready, h.planned.renders⟩ I table.name world fun v i hi => ?_
  obtain ⟨hlt, hv⟩ := h.planned.mem_start values others hi
  rw [hv, hregs i hlt]

end

/-- Compilation preserves what each procedure does, whatever foreign functions do and whatever the
locals hold at the start: the bytecode shows the same events, halts after the same events in the
same world, and is never stuck. -/
theorem compile_preserves {file : SourceFile} (hk : file.Known) {program : Program}
    (hc : file.compile.result = .ok program) {i : Nat} {x : ProcDecl}
    (hx : file.procs[i]? = some x) :
    ∃ p, program.procs[i]? = some p ∧ p.name = x.name.name ∧
      ∀ (V W : Type) (I : Interp V W) (values : Nat → V) (others : String → V) (world : W)
        (regs : Register → V),
        (∀ k < x.args.length, regs (.arg k) = values k) →
        (sourceMachine I x.body).Same ⟨x.body, ⟨x.startMem values others, world⟩⟩
          (codeMachine I program.foreign.name p.code) ⟨0, ⟨regs, world⟩⟩ := by
  rcases SourceFile.compile_cases hk with ⟨-, ps, hps, hall⟩ | ⟨-, e, he, -⟩
  · cases hc.symm.trans hps
    obtain ⟨hlt, rfl⟩ := List.getElem?_eq_some_iff.mp hx
    have hlt' : i < ps.length := hall.length_eq ▸ hlt
    obtain ⟨f, slots, P, n, into, f₂, F, hcomp⟩ := hall.get hlt hlt'
    refine ⟨ps[i], List.getElem?_eq_getElem hlt', hcomp.name,
      fun V W I values others world regs hregs => ?_⟩
    exact hcomp.same I values others world hregs
  · rw [he] at hc
    cases hc

/-- Every call answers how many came before, and 2 counts as true. -/
def counting : Interp Nat Nat where
  apply _ _ w := (w, w + 1)
  holds v := v = 2

theorem poll_code_halts : ∃ program p, pollFile.compile.result = .ok program ∧
    program.procs[0]? = some p ∧
    (codeMachine counting program.foreign.name p.code).Halts
      ⟨0, ⟨fun r => if r = .arg 0 then 7 else 99, 1⟩⟩
      [{ fn := "ask", value := 7 }, { fn := "ask", value := 1 }] 3 := by
  obtain ⟨program, hc⟩ := compile_pollFile
  obtain ⟨p, hp, -, hsame⟩ := compile_preserves (by decide) hc (i := 0) rfl
  refine ⟨program, p, hc, hp,
    ((hsame Nat Nat counting (fun _ => 7) (fun _ => 99) 1 _ ?_).halts _ _).mp ?_⟩
  · intro k hk
    obtain rfl : k = 0 := Nat.lt_one_iff.mp hk
    rfl
  · exact ⟨6, _, run_eq_some_iff.mp rfl, rfl, rfl⟩

end ProcCompiler
