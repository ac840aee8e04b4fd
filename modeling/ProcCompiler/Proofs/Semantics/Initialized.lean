import ProcCompiler.Proofs.Compilation.Accepted
import ProcCompiler.Proofs.Semantics.Layout
/-!
# No local is read before it is written

A path through code takes either side of a branch, whatever its condition. Along a path through the
bytecode of a procedure, a register is there once it was written, or from the start if it stands for
an argument. The code of each block reads only what is there when the block starts and what the
block wrote before. At its end all that it binds is there, and that is what the next block starts
with.

* `Traced.guarded`: what the code of a block reads.
* `Settled.standing_step`: one instruction of the blocks as they are written.
* `Lowers.standing_of_path`: a whole path.
* `compile_initializes`: the locals of compiled procedures.
-/
namespace ProcCompiler

/-! ## Paths through code -/

/-- Where control may go from an instruction at an offset, whatever its condition is. -/
def Instr.succs {ω ρ : Type} (pc : Int) : Instr ω ρ Int → List Int
  | .action _ => [pc + 1]
  | .exit e => e.labels

@[simp] theorem Instr.succs_mapRead {ω ρ ρ' : Type} (f : ρ → ρ') (pc : Int) (x : Instr ω ρ Int) :
    (x.mapRead f).succs pc = x.succs pc := by
  cases x with
  | action a => rfl
  | exit e => exact Exit.labels_mapRead f e

@[simp] theorem Instr.succs_mapWrite {ω ω' ρ : Type} (f : ω → ω') (pc : Int) (x : Instr ω ρ Int) :
    (x.mapWrite f).succs pc = x.succs pc := by
  cases x <;> rfl

/-- A path through code from its start to an offset. The trail holds the offsets before it, in
order. -/
inductive CodePath {ρ : Type} (code : List (Instr ρ ρ Int)) : List Int → Int → Prop where
  | start : CodePath code [] 0
  | step {trail : List Int} {pc next : Int} {x : Instr ρ ρ Int} (path : CodePath code trail pc)
      (hx : fetch code pc = some x) (hnext : next ∈ x.succs pc) : CodePath code (trail ++ [pc]) next

/-! ## Straight-line code -/

/-- Straight-line code that reads only registers of `there` and registers that it wrote before, and
after which all of `out` is there. -/
def Guarded (out : Reg → Prop) : (Reg → Prop) → List (Action Reg Operand) → Prop
  | there, [] => ∀ r, out r → there r
  | there, a :: as =>
    (∀ o, a.read? = some o → there o.regIndex) ∧
      Guarded out (fun r => there r ∨ a.write? = some r) as

namespace Guarded

variable {out there there' : Reg → Prop} {as : List (Action Reg Operand)}

theorem mono (h : Guarded out there as) (ht : ∀ r, there r → there' r) : Guarded out there' as := by
  induction as generalizing there there' with
  | nil => exact fun r hr => ht r (h r hr)
  | cons a as ih => exact ⟨fun o ho => ht _ (h.1 o ho), ih h.2 fun r hr => hr.imp_left (ht r)⟩

/-- An action may be written in parts: the second part of a call reads what the first wrote. -/
theorem expand {a : Action Reg Operand} (h : Guarded out there (a :: as)) :
    Guarded out there (a.expand ++ as) := by
  cases a with
  | call fn r arg =>
    by_cases harg : arg = .reg r
    · rw [show (Action.call fn r arg).expand = [.call fn r arg] from if_pos harg]
      exact h
    · rw [show (Action.call fn r arg).expand = [.move r arg, .call fn r (.reg r)] from if_neg harg]
      refine ⟨fun o ho => h.1 o ho, fun o ho => ?_, h.2.mono fun r hr => .inl hr⟩
      cases ho
      exact .inr rfl
  | move r arg => exact h
  | unknown code => exact h

end Guarded

/-- Code that carries actions on variables reads only what the variables stand in. -/
theorem Traced.guarded {own : Reg → Var → Prop} {loc loc' : Var → Ref} {as : List (Action Reg Ref)}
    {ss : List (Action Var Var)} (h : Traced own loc as ss loc') {ps : List Var}
    {xs : List (Action Reg Operand)} (hxs : xs.map (·.mapRead (Operand.ref ps)) = as)
    (hk : ∀ x ∈ xs, ∀ o, x.read? = some o → o.known?.isSome) {there : Reg → Prop}
    (hloc : ∀ v, loc v = .var v ∨ ∃ r, loc v = .reg r) (hthere : ∀ v r, loc v = .reg r → there r) :
    Guarded (fun r => ∃ v, loc' v = .reg r) there (xs.flatMap Action.expand) := by
  induction h generalizing xs there with
  | nil =>
    obtain rfl := List.map_eq_nil_iff.mp hxs
    rintro r ⟨v, hv⟩
    exact hthere v r hv
  | @step loc loc' as ss a w r hw _ _ ih =>
    obtain ⟨x, xs, rfl, hx, hxs⟩ := List.map_eq_cons_iff.mp hxs
    obtain ⟨v, hv⟩ := Action.exists_read hw
    obtain ⟨s, hs, hcarried⟩ := Action.carried hloc (hk x (by simp)) hv hx
    have hwrite : x.write? = some r := by
      rw [← Action.write?_mapRead Operand.regIndex, hcarried, Action.write?_mapWrite,
        Action.write?_mapRead, hw]
      rfl
    have hread : x.read?.map Operand.regIndex = some s := by
      rw [← Action.read?_mapRead, hcarried, Action.read?_mapWrite, Action.read?_mapRead, hv]
      rfl
    rw [List.flatMap_cons]
    refine Guarded.expand ⟨fun o ho => ?_, ?_⟩
    · rw [ho] at hread
      exact hthere v _ (Option.some.inj hread ▸ hs)
    · refine ih hxs (fun y hy => hk y (by simp [hy])) (fun v => ?_) fun v s hs => ?_
      · by_cases hv : v = w
        · subst hv; exact .inr ⟨r, Function.update_self ..⟩
        · rw [Function.update_of_ne hv]; exact hloc v
      · by_cases hv : v = w
        · subst hv
          rw [Function.update_self] at hs
          cases hs
          exact .inr hwrite
        · rw [Function.update_of_ne hv] at hs
          exact .inl (hthere v s hs)

/-! ## The blocks as they are written -/

/-- The block binds a variable to the register. -/
def Block.Binds (b : Block) (r : Reg) : Prop := ∃ v, b.located v = .reg r

/-- The code from an offset on is the end of a block and then the blocks after it, and reads only
what is there. -/
def Routine.Standing (f : Routine) (order : List BlockId) (there : Reg → Prop) (k : Nat) : Prop :=
  ∃ done b rest as, order = done ++ b :: rest ∧
    (f.flat order).drop k = as.map .action ++ ((f.block b).emitExit rest.head? ++ f.flat rest) ∧
    Guarded (f.block b).Binds there as

namespace Settled

variable {f f₂ F : Routine} {n : Needs} {slots : List Slot} {into : BlockId → Var → Option Reg}
  (h : Settled f n slots into f₂ F) {sk : BlockId → Listing Var} (hs : Sketched f sk)
    {there : Reg → Prop}

include h hs

/-- A block reads only what it starts with and what it wrote. -/
theorem guarded_block {b : BlockId} (hb : b ∈ f₂.graph.order)
    (hthere : ∀ v r, startPlace F into b v = .reg r → there r) :
    Guarded (F.block b).Binds there ((F.block b).body.flatMap Action.expand) :=
  (h.carries hs hb).body.guarded rfl (h.known hb).body (startPlace_cases F into b) hthere

/-- What a block reads last it binds. -/
theorem binds_of_exit {b : BlockId} (hb : b ∈ f₂.graph.order) {e : Exit Operand Label}
    (he : (F.block b).exit = some e) {o : Operand} (ho : e.read? = some o) :
    (F.block b).Binds o.regIndex := by
  have href := (h.carries hs hb).exit
  rw [Block.exitRef, he] at href
  obtain ⟨s, -, hse⟩ := Option.map_eq_some_iff.mp href.symm
  have hread := congrArg Exit.read? hse
  rw [Exit.read?_mapRead, Exit.read?_mapRead, ho] at hread
  obtain ⟨v, -, hv⟩ := Option.map_eq_some_iff.mp hread
  exact ⟨v, Operand.ref_known ((h.known hb).exit e he o ho) ((F.block b).located_cases v) hv.symm⟩

/-- A successor starts with what the block binds. -/
theorem guarded_succ {b t : BlockId} (hb : b ∈ f₂.graph.order) (ht : t ∈ f₂.graph.succs b)
    (ho : t ∈ f₂.graph.order) (h0 : t ≠ entry) (hthere : ∀ r, (F.block b).Binds r → there r) :
    Guarded (F.block t).Binds there ((F.block t).body.flatMap Action.expand) := by
  refine h.guarded_block hs ho fun v r hr => hthere r ⟨v, ?_⟩
  exact h.located_of_startPlace (FlowGraph.mem_preds.mpr ⟨hb, ht⟩) h0 hr

/-- An instruction at the end of a block: an action that reads what is there, or the exit, at which
all that the block binds is there. If neither is left, the code goes on with the next block. -/
theorem standing_cases {k : Nat} {done rest : List BlockId} {b : BlockId}
    {as : List (Action Reg Operand)} (hord : f₂.graph.order = done ++ b :: rest)
    (hcode : (F.flat f₂.graph.order).drop k =
      as.map .action ++ ((F.block b).emitExit rest.head? ++ F.flat rest))
    (hg : Guarded (F.block b).Binds there as) {x : BlockInstr}
    (hx : (F.flat f₂.graph.order)[k]? = some x) :
    (∃ a, x = .action a ∧ (∀ o, a.read? = some o → there o.regIndex) ∧
      F.Standing f₂.graph.order (fun r => there r ∨ a.write? = some r) (k + 1)) ∨
    (∃ e, x = .exit e ∧ (F.block b).exit = some e ∧ ∀ r, (F.block b).Binds r → there r) ∨
    ∃ t rest', rest = t :: rest' ∧ f₂.graph.order = (done ++ [b]) ++ t :: rest' ∧
      (F.flat f₂.graph.order).drop k = ((F.block t).body.flatMap Action.expand).map .action ++
        ((F.block t).emitExit rest'.head? ++ F.flat rest') ∧
      Guarded (F.block t).Binds there ((F.block t).body.flatMap Action.expand) := by
  have hb : b ∈ f₂.graph.order := by rw [hord]; simp
  cases as with
  | cons a as =>
    obtain ⟨hget, hdrop⟩ := of_drop_eq_cons hcode
    cases hx.symm.trans hget
    exact .inl ⟨a, rfl, hg.1, done, b, rest, as, hord, hdrop, hg.2⟩
  | nil =>
    right
    obtain ⟨e, he, -⟩ := h.exit_leads hb
    rcases Block.emitExit_cases he rest.head? with hw | ⟨t, hnext, rfl, hw⟩
    · rw [hw] at hcode
      cases hx.symm.trans (of_drop_eq_cons hcode).1
      exact .inl ⟨e, rfl, he, hg⟩
    · right
      obtain ⟨rest, rfl⟩ := List.head?_eq_some_iff.mp hnext
      obtain ⟨u, hu, hsucc, ho, h0⟩ := h.exists_succ hb he (l := t) (by simp [Exit.labels])
      obtain rfl : t = u := Int.ofNat.inj hu
      rw [hw, List.map_nil, List.nil_append, List.nil_append, Routine.flat_cons, Block.emit,
        List.append_assoc] at hcode
      exact ⟨t, rest, rfl, by rw [hord]; simp, hcode, h.guarded_succ hs hb hsucc ho h0 hg⟩

/-- One instruction of the blocks as they are written. An action reads what is there, and what it
writes is there after it. At an exit all that its block binds is there. -/
theorem standing_step {k : Nat} (hst : F.Standing f₂.graph.order there k) {x : BlockInstr}
    (hx : (F.flat f₂.graph.order)[k]? = some x) :
    (∃ a, x = .action a ∧ (∀ o, a.read? = some o → there o.regIndex) ∧
      F.Standing f₂.graph.order (fun r => there r ∨ a.write? = some r) (k + 1)) ∨
    ∃ b ∈ f₂.graph.order, ∃ e, x = .exit e ∧ (F.block b).exit = some e ∧ ∀ r, (F.block b).Binds r →
      there r := by
  obtain ⟨done, b, rest, as, hord, hcode, hg⟩ := hst
  -- blocks whose jump was left out may stand at one offset, so the induction is on the blocks to
  -- come
  induction rest generalizing done b as with
  | nil =>
    rcases h.standing_cases hs hord hcode hg hx with ha | he | ⟨t, rest', hrest, -⟩
    · exact .inl ha
    · exact .inr ⟨b, by rw [hord]; simp, he⟩
    · cases hrest
  | cons t rest ih =>
    rcases h.standing_cases hs hord hcode hg hx with
      ha | he | ⟨t', rest', hrest, hord', hcode', hg'⟩
    · exact .inl ha
    · exact .inr ⟨b, by rw [hord]; simp, he⟩
    · cases hrest
      exact ih _ _ _ hord' hcode' hg'

/-- The start of a block. -/
theorem standing_of_written {b : BlockId} {k : Nat}
    (hw : F.WrittenAt f₂.graph.order { block := b, index := 0 } k)
    (hthere : ∀ v r, startPlace F into b v = .reg r → there r) :
    F.Standing f₂.graph.order there k := by
  obtain ⟨done, rest, hord, hcode⟩ := hw
  exact ⟨done, b, rest, _, hord, hcode, h.guarded_block hs (by rw [hord]; simp) hthere⟩

end Settled

/-! ## Paths through the code of a routine -/

namespace Routine

variable {F : Routine} {order : List BlockId}

theorem Standing.mono {there there' : Reg → Prop} {k : Nat} (h : F.Standing order there k)
    (ht : ∀ r, there r → there' r) : F.Standing order there' k := by
  obtain ⟨done, b, rest, as, hord, hcode, hg⟩ := h
  exact ⟨done, b, rest, as, hord, hcode, hg.mono ht⟩

/-- The code is that of the blocks, with offsets for labels and places for registers. -/
theorem exists_of_fetch {k : Nat} {y : Instruction} (h : fetch (F.placedCode order) k = some y) :
    ∃ x, (F.flat order)[k]? = some x ∧
      y = ((x.resolved (F.chunks order)).mapRead (F.placeIn order)).mapWrite (F.placeIn order) := by
  have hget : (F.placedCode order)[k]? = some y := h
  rw [placedCode, resolvedCode, List.getElem?_map, List.getElem?_map, Option.map_map] at hget
  obtain ⟨x, hx, rfl⟩ := Option.map_eq_some_iff.mp hget
  exact ⟨x, hx, rfl⟩

/-- The register stands for an argument, or was written on the trail. -/
def Written (F : Routine) (order : List BlockId) (trail : List Int) (r : Reg) : Prop :=
  (F.slot? r).isSome ∨
    ∃ q ∈ trail, ∃ y, fetch (F.placedCode order) q = some y ∧ y.write? = some (F.placeIn order r)

theorem Written.snoc {trail : List Int} {r : Reg} (h : F.Written order trail r) (pc : Int) :
    F.Written order (trail ++ [pc]) r :=
  h.imp_right fun ⟨q, hq, hy⟩ => ⟨q, by simp [hq], hy⟩

/-- What is written and stands in a local was written on the trail. -/
theorem Written.of_local {trail : List Int} {r : Reg} (h : F.Written order trail r) {i : Int}
    (hi : F.placeIn order r = .frame i) :
    ∃ q ∈ trail, ∃ y, fetch (F.placedCode order) q = some y ∧ y.write? = some (.frame i) := by
  rcases h with hslot | hw
  · obtain ⟨j, hj⟩ := Option.isSome_iff_exists.mp hslot
    rw [placeIn, place, hj] at hi
    cases hi
  · rwa [hi] at hw

end Routine

namespace Lowers

variable {f f₂ F : Routine} {slots : List Slot} {n : Needs} {into : BlockId → Var → Option Reg}
  (h : Lowers f slots n into f₂ F) {sk : BlockId → Listing Var} (hs : Sketched f sk)

include h hs

/-- Along a path, what was written is there. -/
theorem standing_of_path {trail : List Int} {pc : Int}
    (path : CodePath (F.placedCode f₂.graph.order) trail pc) :
    ∃ k : Nat, pc = k ∧ F.Standing f₂.graph.order (F.Written f₂.graph.order trail) k := by
  have hset := h.settled
  induction path with
  | start =>
    obtain ⟨rest, hrest⟩ : ∃ rest, f₂.graph.order = entry :: rest := FlowGraph.head_ofTable_order _
    refine ⟨0, rfl, hset.standing_of_written hs.addExit (b := entry) ?_ fun v r hr => .inl ?_⟩
    · rw [hrest]
      exact Routine.writtenAt_zero
    · obtain ⟨hv, rfl⟩ := hset.mem_of_startPlace_entry hr
      rw [hset.slot?_entry hv]
      exact slotOf?_isSome.mpr (h.provided v hv)
  | @step trail _ next y _ hy hnext ih =>
    obtain ⟨k, rfl, hst⟩ := ih
    obtain ⟨x, hx, rfl⟩ := Routine.exists_of_fetch hy
    rw [Instr.succs_mapWrite, Instr.succs_mapRead] at hnext
    rcases hset.standing_step hs.addExit hst hx with ⟨a, rfl, -, hst'⟩ | ⟨b, hb, e, rfl, he, hbinds⟩
    · refine ⟨k + 1, List.mem_singleton.mp hnext, hst'.mono fun r hr => ?_⟩
      rcases hr with hr | hr
      · exact hr.snoc k
      · refine .inr ⟨k, by simp, _, hy, ?_⟩
        rw [Instr.write?_mapWrite, Instr.write?_mapRead, Instr.write?_resolved, Instr.write?, hr]
        rfl
    · obtain ⟨l, hl, rfl⟩ := Exit.mem_labels_mapLabel.mp hnext
      rw [Exit.labels_mapRead] at hl
      obtain ⟨t, rfl, hsucc, ho, h0⟩ := hset.exists_succ hb he hl
      refine ⟨_, rfl,
        hset.standing_of_written hs.addExit (Routine.writtenAt_offset ho) fun v r hr => ?_⟩
      have hpred := FlowGraph.mem_preds.mpr ⟨hb, hsucc⟩
      exact (hbinds r ⟨v, hset.located_of_startPlace hpred h0 hr⟩).snoc k

/-- A local that is read on a path was written before on the path. -/
theorem exists_write {trail : List Int} {pc : Int}
    (path : CodePath (F.placedCode f₂.graph.order) trail pc) {y : Instruction}
    (hy : fetch (F.placedCode f₂.graph.order) pc = some y) {i : Int}
    (hi : y.read? = some (.frame i)) :
    ∃ q ∈ trail, ∃ z, fetch (F.placedCode f₂.graph.order) q = some z ∧
      z.write? = some (.frame i) := by
  obtain ⟨k, rfl, hst⟩ := h.standing_of_path hs path
  obtain ⟨x, hx, rfl⟩ := Routine.exists_of_fetch hy
  rw [Instr.read?_mapWrite, Instr.read?_mapRead, Instr.read?_resolved] at hi
  obtain ⟨r, hr, hplace⟩ := Option.map_eq_some_iff.mp hi
  obtain ⟨o, ho, rfl⟩ := Option.map_eq_some_iff.mp hr
  refine Routine.Written.of_local ?_ hplace
  rcases h.settled.standing_step hs.addExit hst hx with ⟨a, rfl, hreads, -⟩ |
    ⟨b, hb, e, rfl, he, hbinds⟩
  · exact hreads o ho
  · exact hbinds _ (h.settled.binds_of_exit hs.addExit hb he ho)

end Lowers

/-- No local is read before it is written. On every path through the bytecode of a compiled
procedure, whichever way its branches go, an instruction that reads a local comes after one that
writes the same local. -/
theorem compile_initializes {file : SourceFile} {program : Program}
    (hc : file.compile.result = .ok program) {p : Procedure} (hp : p ∈ program.procs)
    {trail : List Int} {pc : Int} (path : CodePath p.code trail pc) {x : Instruction}
    (hx : fetch p.code pc = some x) {i : Int} (hi : x.read? = some (.frame i)) :
    ∃ q ∈ trail, ∃ y, fetch p.code q = some y ∧ y.write? = some (.frame i) := by
  obtain ⟨d, -, f, slots, P, n, into, f₂, F, hcomp⟩ := SourceFile.exists_compiledTo hc hp
  rw [hcomp.code] at path hx ⊢
  exact hcomp.lowers.exists_write ⟨hcomp.planned.ready, hcomp.planned.renders⟩ path hx hi

/-- The bytecode of the procedure that polls. -/
def pollCode : Bytecode :=
  [.action (.move (.frame 0) (.arg 0)), .action (.move (.frame 1) (.frame 0)),
    .action (.call 0 (.frame 1) (.frame 1)), .exit (.branch (.frame 1) 4 6),
    .action (.move (.frame 2) (.frame 1)), .exit (.jump 8), .action (.move (.frame 0) (.frame 1)),
    .exit (.jump 1), .exit .ret]

theorem exists_pollCode : ∃ program p, pollFile.compile.result = .ok program ∧ p ∈ program.procs ∧
    p.code = pollCode := by
  obtain ⟨program, hc⟩ := compile_pollFile
  have hcode :
      pollFile.compile.result.toOption.all (fun q => q.procs.map Procedure.code = [pollCode]) := by
    decide +kernel
  rw [hc] at hcode
  obtain ⟨p, hprocs, hp⟩ : ∃ p, program.procs = [p] ∧ p.code = pollCode := by
    simpa [Except.toOption] using hcode
  exact ⟨program, p, hc, by simp [hprocs], hp⟩

/-- Once round the loop and back at its head. -/
theorem path_pollCode : CodePath pollCode [0, 1, 2, 3, 6, 7] 1 := by
  have h₁ : CodePath pollCode [0] 1 := .step .start rfl (by decide)
  have h₂ : CodePath pollCode [0, 1] 2 := .step h₁ rfl (by decide)
  have h₃ : CodePath pollCode [0, 1, 2] 3 := .step h₂ rfl (by decide)
  have h₄ : CodePath pollCode [0, 1, 2, 3] 6 := .step h₃ rfl (by decide)
  have h₅ : CodePath pollCode [0, 1, 2, 3, 6] 7 := .step h₄ rfl (by decide)
  exact .step h₅ rfl (by decide)

/-- The head of the loop reads a local, which was written by then. -/
theorem pollFile_initializes : ∃ program p, pollFile.compile.result = .ok program ∧
    p ∈ program.procs ∧ CodePath p.code [0, 1, 2, 3, 6, 7] 1 ∧
    fetch p.code 1 = some (.action (.move (.frame 1) (.frame 0))) ∧
    ∃ q ∈ [0, 1, 2, 3, 6, 7], ∃ y, fetch p.code q = some y ∧ y.write? = some (.frame 0) := by
  obtain ⟨program, p, hc, hp, hcode⟩ := exists_pollCode
  have hpath : CodePath p.code [0, 1, 2, 3, 6, 7] 1 := hcode ▸ path_pollCode
  have hfetch : fetch p.code 1 = some (.action (.move (.frame 1) (.frame 0))) := by rw [hcode]; rfl
  exact ⟨program, p, hc, hp, hpath, hfetch, compile_initializes hc hp hpath hfetch rfl⟩

end ProcCompiler
