import ProcCompiler.Bytecode.Verify
import ProcCompiler.Proofs.Semantics.Code
/-!
# What verification guarantees

Verification accepts code exactly if each instruction is allowed in the frame of its procedure and
the last one is an exit. A run of such code takes either side of a branch, whatever its condition,
and goes on after an operation without a meaning. It can always go on, stays inside the code until
it returns, and touches only registers that the frame has.

* `Procedure.Sound`: code that is allowed.
* `verify_ok_iff`: verification accepts just this code.
* `Bytecode.Run`: what code may do.
* `Procedure.Sound.step`, `Procedure.Sound.run`: one step, and a whole run.
-/
namespace ProcCompiler

/-! ## Allowed code -/

/-- An argument or a local, not a register of another kind. -/
def Register.IsPlaced : Register → Prop
  | .frame _ => True
  | .arg _ => True
  | .other _ _ => False

/-- The registers that an instruction reads or writes. -/
def Instruction.registers : Instruction → List Register
  | .action (.move out arg) => [arg, out]
  | .action (.call _ out arg) => [arg, out]
  | .action (.unknown _) => []
  | .exit (.jump _) => []
  | .exit (.branch cond _ _) => [cond]
  | .exit .ret => []

namespace Procedure

variable {p : Procedure}

/-- The frame has the register. Without a signature there are no arguments. -/
def Has (p : Procedure) : Register → Prop
  | .frame i => 0 ≤ i ∧ i < p.locals
  | .arg i => ∃ s, p.signature = some s ∧ 0 ≤ i ∧ i < s.args.length
  | .other _ _ => False

/-- The offset is one of the code. -/
def Inside (p : Procedure) (pc : Int) : Prop := 0 ≤ pc ∧ pc < p.code.length

/-- An instruction that the procedure may contain. -/
def Allows (p : Procedure) : Instruction → Prop
  | .action (.move out arg) => p.Has out ∧ p.Has arg
  | .action (.call _ out arg) => p.Has out ∧ p.Has arg ∧ out = arg
  | .action (.unknown _) => True
  | .exit (.jump target) => p.Inside target
  | .exit (.branch cond taken other) => p.Has cond ∧ p.Inside taken ∧ p.Inside other
  | .exit .ret => True

/-- Each instruction is allowed, and the last one is an exit. -/
structure Sound (p : Procedure) : Prop where
  ends : ∃ code e, p.code = code ++ [.exit e]
  allows : ∀ x ∈ p.code, p.Allows x

/-! ## Verification -/

theorem inRange_iff {i n : Int} : inRange i n = true ↔ 0 ≤ i ∧ i < n := by
  simp [inRange]

theorem registerDefect?_eq_none_iff {r : Register} (hr : r.IsPlaced) (pc : Nat) :
    p.registerDefect? pc r = none ↔ p.Has r := by
  cases r with
  | frame i => simp [registerDefect?, Has, inRange_iff]
  | arg i =>
    cases hs : p.signature with
    | none =>
      simp only [registerDefect?, args, hs, Has, ite_eq_left_iff, reduceCtorEq, imp_false, not_not,
        inRange_iff, List.length_nil, false_and, exists_false, iff_false]
      omega
    | some s => simp [registerDefect?, args, hs, Has, inRange_iff]
  | other kind i => exact hr.elim

theorem find?_labels_eq_none_iff {labels : List Int} :
    labels.find? (fun l => !inRange l p.code.length) = none ↔ ∀ l ∈ labels, p.Inside l := by
  simp [List.find?_eq_none, inRange_iff, Inside]

theorem instrDefect?_eq_none_iff {x : Instruction} (hx : ∀ r ∈ x.registers, r.IsPlaced) (pc : Nat) :
    p.instrDefect? pc x = none ↔ p.Allows x := by
  have hreg : ∀ r ∈ x.registers, (p.registerDefect? pc r = none ↔ p.Has r) := fun r hr =>
    registerDefect?_eq_none_iff (hx r hr) pc
  have hor : ∀ {d d' : Option Defect}, (d <|> d') = none ↔ d = none ∧ d' = none := by simp
  simp only [instrDefect?, hor, Option.map_eq_none_iff, find?_labels_eq_none_iff]
  rcases x with (⟨out, arg⟩ | ⟨fn, out, arg⟩ | code) | (target | ⟨cond, taken, other⟩ | _)
  · have hout := hreg out (.tail _ (.head _))
    have harg := hreg arg (.head _)
    simp [Instr.labels, Instr.write?, Instr.read?, Action.write?, Action.read?, Allows, hout, harg]
  · have hout := hreg out (.tail _ (.head _))
    have harg := hreg arg (.head _)
    simp [Instr.labels, Instr.write?, Instr.read?, Action.write?, Action.read?, Allows, hout, harg]
  · simp [Instr.labels, Instr.write?, Instr.read?, Action.write?, Action.read?, Allows]
  · simp [Instr.labels, Instr.write?, Instr.read?, Exit.read?, Exit.labels, Allows]
  · have hcond := hreg cond (.head _)
    by_cases ht : taken = other
    · simp [Instr.labels, Instr.write?, Instr.read?, Exit.read?, Exit.labels, Allows, hcond, ht,
        and_comm]
    · simp [Instr.labels, Instr.write?, Instr.read?, Exit.read?, Exit.labels, Allows, hcond, ht,
        and_comm]
  · simp [Instr.labels, Instr.write?, Instr.read?, Exit.read?, Exit.labels, Allows]

theorem defect?_eq_none_iff : p.defect? = none ↔ (∃ code e, p.code = code ++ [.exit e]) ∧
    ∀ y ∈ p.code.zipIdx, p.instrDefect? y.2 y.1 = none := by
  unfold defect?
  split
  · rename_i hnil
    simp [List.getLast?_eq_none_iff.mp hnil]
  · rename_i last hlast
    obtain ⟨code, hcode⟩ := List.getLast?_eq_some_iff.mp hlast
    cases last with
    | action a =>
      simp only [Instr.isExit, Bool.false_eq_true, if_false, reduceCtorEq, false_iff]
      rintro ⟨⟨code', e, he⟩, -⟩
      simp [he] at hlast
    | exit e => simpa [Instr.isExit, List.findSome?_eq_none_iff] using fun _ => ⟨code, e, hcode⟩

/-- Verification accepts just the sound code. -/
theorem verify_ok_iff (hkind : ∀ x ∈ p.code, ∀ r ∈ Instruction.registers x, r.IsPlaced) :
    p.verify = .ok () ↔ p.Sound := by
  have hverify : p.verify = .ok () ↔ p.defect? = none := by
    unfold verify
    cases p.defect? <;> simp
  rw [hverify, defect?_eq_none_iff]
  constructor
  · rintro ⟨hends, hnone⟩
    refine ⟨hends, fun x hx => ?_⟩
    obtain ⟨i, hi, rfl⟩ := List.getElem_of_mem hx
    have hmem : (p.code[i], i) ∈ p.code.zipIdx :=
      List.mk_mem_zipIdx_iff_getElem?.mpr (List.getElem?_eq_getElem hi)
    exact (instrDefect?_eq_none_iff (hkind _ hx) i).mp (hnone _ hmem)
  · intro h
    refine ⟨h.ends, fun y hy => ?_⟩
    have hmem := List.fst_mem_of_mem_zipIdx hy
    exact (instrDefect?_eq_none_iff (hkind _ hmem) y.2).mpr (h.allows _ hmem)

end Procedure

/-! ## Runs -/

namespace Bytecode

/-- One step from an offset: the registers that it touches, and the offset that it goes on at, if it
does not return. -/
inductive Step (code : Bytecode) (pc : Int) : List Register → Option Int → Prop where
  | move {out arg : Register} (h : fetch code pc = some (.action (.move out arg))) :
      Step code pc [arg, out] (some (pc + 1))
  | call {fn : FuncId} {out arg : Register}
      (h : fetch code pc = some (.action (.call fn out arg))) :
      Step code pc [arg, out] (some (pc + 1))
  | unknown {op : Int} (h : fetch code pc = some (.action (.unknown op))) :
      Step code pc [] (some (pc + 1))
  | jump {target : Int} (h : fetch code pc = some (.exit (.jump target))) :
      Step code pc [] (some target)
  | taken {cond : Register} {taken other : Int}
      (h : fetch code pc = some (.exit (.branch cond taken other))) :
      Step code pc [cond] (some taken)
  | other {cond : Register} {taken other : Int}
      (h : fetch code pc = some (.exit (.branch cond taken other))) :
      Step code pc [cond] (some other)
  | ret (h : fetch code pc = some (.exit .ret)) : Step code pc [] none

/-- Some steps from the start of the code: the registers that they touch, and the offset where the
run is, if it has not returned. -/
inductive Run (code : Bytecode) : Nat → List Register → Option Int → Prop where
  | start : Run code 0 [] (some 0)
  | step {n : Nat} {pc : Int} {before now : List Register} {next : Option Int}
      (h : Run code n before (some pc))
      (hs : Step code pc now next) : Run code (n + 1) (before ++ now) next

end Bytecode

namespace Procedure

variable {p : Procedure}

theorem exists_fetch {pc : Int} (h : p.Inside pc) : ∃ x ∈ p.code, fetch p.code pc = some x := by
  obtain ⟨i, rfl⟩ := Int.eq_ofNat_of_zero_le h.1
  have hi : i < p.code.length := Int.ofNat_lt.mp h.2
  exact ⟨p.code[i], List.getElem_mem hi, List.getElem?_eq_getElem hi⟩

theorem inside_of_fetch {pc : Int} {x : Instruction} (h : fetch p.code pc = some x) :
    p.Inside pc ∧ x ∈ p.code := by
  unfold fetch at h
  split at h
  · exact ⟨⟨Int.natCast_nonneg _, Int.ofNat_lt.mpr (List.getElem?_eq_some_iff.mp h).1⟩,
      List.mem_of_getElem? h⟩
  · cases h

/-- From every offset of the code the run goes on. -/
theorem exists_step {pc : Int} (hpc : p.Inside pc) :
    ∃ rs next, Bytecode.Step p.code pc rs next := by
  obtain ⟨x, -, hx⟩ := exists_fetch hpc
  rcases x with (⟨out, arg⟩ | ⟨fn, out, arg⟩ | code) | (target | ⟨cond, taken, other⟩ | _)
  · exact ⟨_, _, .move hx⟩
  · exact ⟨_, _, .call hx⟩
  · exact ⟨_, _, .unknown hx⟩
  · exact ⟨_, _, .jump hx⟩
  · exact ⟨_, _, .taken hx⟩
  · exact ⟨_, _, .ret hx⟩

namespace Sound

variable (h : p.Sound)

include h

theorem inside_start : p.Inside 0 := by
  obtain ⟨code, e, hcode⟩ := h.ends
  unfold Inside
  rw [hcode]
  simp

/-- An action is not the last instruction. -/
theorem inside_succ {pc : Int} {a : Action Register Register}
    (ha : fetch p.code pc = some (.action a)) :
    p.Inside (pc + 1) := by
  obtain ⟨code, e, hcode⟩ := h.ends
  obtain ⟨⟨hpos, hlt⟩, -⟩ := inside_of_fetch ha
  obtain ⟨i, rfl⟩ := Int.eq_ofNat_of_zero_le hpos
  rw [hcode] at ha hlt
  unfold Inside
  rw [hcode]
  have hne : i ≠ code.length := by
    rintro rfl
    simp [fetch] at ha
  simp only [List.length_append, List.length_singleton] at hlt ⊢
  omega

/-- One step stays in the code and in the frame. -/
theorem step {pc : Int} {rs : List Register} {next : Option Int}
    (hs : Bytecode.Step p.code pc rs next) :
    (∀ r ∈ rs, p.Has r) ∧ ∀ pc', next = some pc' → p.Inside pc' := by
  have hallows : ∀ {x}, fetch p.code pc = some x → p.Allows x :=
    fun hx => h.allows _ (inside_of_fetch hx).2
  cases hs with
  | move hx =>
    obtain ⟨hout, harg⟩ := hallows hx
    exact ⟨by simp [hout, harg], by rintro _ ⟨⟩; exact h.inside_succ hx⟩
  | call hx =>
    obtain ⟨hout, harg, -⟩ := hallows hx
    exact ⟨by simp [hout, harg], by rintro _ ⟨⟩; exact h.inside_succ hx⟩
  | unknown hx => exact ⟨by simp, by rintro _ ⟨⟩; exact h.inside_succ hx⟩
  | jump hx => exact ⟨by simp, by rintro _ ⟨⟩; exact hallows hx⟩
  | taken hx =>
    obtain ⟨hcond, htaken, -⟩ := hallows hx
    exact ⟨by simp [hcond], by rintro _ ⟨⟩; exact htaken⟩
  | other hx =>
    obtain ⟨hcond, -, hother⟩ := hallows hx
    exact ⟨by simp [hcond], by rintro _ ⟨⟩; exact hother⟩
  | ret hx => exact ⟨by simp, by rintro _ ⟨⟩⟩

/-- So does a whole run. -/
theorem run {n : Nat} {rs : List Register} {place : Option Int}
    (hr : Bytecode.Run p.code n rs place) :
    (∀ r ∈ rs, p.Has r) ∧ ∀ pc, place = some pc → p.Inside pc := by
  induction hr with
  | start => exact ⟨by simp, by rintro _ ⟨⟩; exact h.inside_start⟩
  | step _ hs ih =>
    obtain ⟨hnow, hnext⟩ := h.step hs
    refine ⟨fun r hr => ?_, hnext⟩
    rcases List.mem_append.mp hr with hr | hr
    · exact ih.1 r hr
    · exact hnow r hr

end Sound

end Procedure

/-- Verification is exact: it accepts the code that ends in an exit and whose instructions are all
allowed. It is sound: a run of such code can go on until it returns, stays inside the code, and
touches only registers that the frame has. -/
theorem verify_exact_and_safe (p : Procedure)
    (hkind : ∀ x ∈ p.code, ∀ r ∈ Instruction.registers x, r.IsPlaced) :
    (p.verify = .ok () ↔ p.Sound) ∧
      (p.verify = .ok () → ∀ n rs place, Bytecode.Run p.code n rs place →
      (∀ r ∈ rs, p.Has r) ∧
        ∀ pc, place = some pc → p.Inside pc ∧ ∃ now next, Bytecode.Step p.code pc now next) := by
  have hiff := Procedure.verify_ok_iff hkind
  refine ⟨hiff, fun hok n rs place hr => ?_⟩
  obtain ⟨hregs, hinside⟩ := (hiff.mp hok).run hr
  exact ⟨hregs, fun pc hpc => ⟨hinside pc hpc, Procedure.exists_step (hinside pc hpc)⟩⟩

/-- An operation without a meaning, a loop, and a branch that leaves it to the right of a jump
back. -/
def pollingProc : Procedure where
  name := "poll"
  signature := some { name := "poll", args := [{ name := "x", access := .ref, size := 1 }] }
  code := [.action (.unknown 9), .action (.move (.frame 0) (.arg 0)),
    .action (.call 0 (.frame 0) (.frame 0)), .exit (.branch (.frame 0) 5 4), .exit (.jump 1),
    .exit .ret]
  locals := 1

theorem pollingProc_safe : pollingProc.verify = .ok () ∧ pollingProc.Sound ∧
    ∀ n rs place, Bytecode.Run pollingProc.code n rs place → (∀ r ∈ rs, pollingProc.Has r) ∧
      ∀ pc, place = some pc → pollingProc.Inside pc ∧
        ∃ now next, Bytecode.Step pollingProc.code pc now next := by
  have hok : pollingProc.verify = .ok () := by decide
  have h := verify_exact_and_safe pollingProc
      (by simp [pollingProc, Instruction.registers, Register.IsPlaced])
  exact ⟨hok, h.1.mp hok, h.2 hok⟩

end ProcCompiler
