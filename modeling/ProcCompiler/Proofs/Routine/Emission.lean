import ProcCompiler.Proofs.Lowering.Stages
import ProcCompiler.Proofs.Routine.Session
/-!
# Whatever lowering emits can be run

A session may do what it likes: put code into the entry, add instructions with operands and
operations of any kind, leave blocks that nothing reaches, or a loop without a return. If lowering
has a result for its routine, the code passes verification. A block that lost its only jump has the
offset of the block after it, so its label is still one of the code.

* `Session.regs_perform`: what one call does to the registers.
* `Session.plain_run`: no session makes argument registers.
* `lower_verifies`: verification accepts the code of every lowered routine.
-/
namespace ProcCompiler

namespace Session

/-- A call makes one register at most, for a variable. -/
theorem regs_perform (s : Session) (c : BuildCall) : (s.perform c).routine.regs = s.routine.regs ∨
    ∃ v, (s.perform c).routine.regs = s.routine.regs.push { var := v } := by
  cases c with
  | newVar name => exact .inl rfl
  | createBlock => exact .inl rfl
  | createRegister v => exact .inr ⟨v, rfl⟩
  | read b v =>
    simp only [perform, Build.read_eq]
    cases s.routine.find? b <;> exact .inl rfl
  | write b v =>
    simp only [perform, Build.after, Build.write_eq]
    cases s.routine.find? b with
    | none => exact .inl rfl
    | some p =>
      by_cases hc : (s.routine.block p).isComplete
      · left; simp only [if_pos hc]
      · simp only [if_neg hc]; exact .inr ⟨v, rfl⟩
  | writeReg b v r =>
    simp only [perform, Build.after, Build.writeReg_eq]
    cases s.routine.find? b with
    | none => exact .inl rfl
    | some p =>
      left
      by_cases hc : (s.routine.block p).isComplete
      · simp only [if_pos hc]
      · simp only [if_neg hc]; rfl
  | add b x =>
    simp only [perform, Build.after, Build.add_eq]
    cases s.routine.find? b with
    | none => exact .inl rfl
    | some p =>
      left
      by_cases hc : (s.routine.block p).isComplete
      · simp only [if_pos hc]
      · simp only [if_neg hc]; rfl

/-- A call makes no argument register. -/
theorem plain_perform {s : Session} (h : ∀ info ∈ s.routine.regs.toList, info.slot = none)
    (c : BuildCall) :
    ∀ info ∈ (s.perform c).routine.regs.toList, info.slot = none := by
  intro info hi
  rcases s.regs_perform c with hr | ⟨v, hr⟩ <;> rw [hr] at hi
  · exact h info hi
  · rw [Array.toList_push, List.mem_append, List.mem_singleton] at hi
    rcases hi with hi | rfl
    · exact h info hi
    · rfl

/-- No session makes argument registers. -/
theorem plain_run {s : Session} (h : ∀ info ∈ s.routine.regs.toList, info.slot = none)
    (calls : List BuildCall) :
    ∀ info ∈ (s.run calls).routine.regs.toList, info.slot = none :=
  foldl_inv perform (fun _ s => ∀ info ∈ s.routine.regs.toList, info.slot = none) calls s h
    fun _ c _ _ _ hs => plain_perform hs c

end Session

/-- Whatever calls a routine was built by, verification accepts the code that lowering emits for it,
in a procedure with as many locals as it says and as many arguments as there are slots. In
particular every label is an offset of the code, and the code ends in an exit. -/
theorem lower_verifies (name : String) (calls : List BuildCall) (slots : List Slot) {F : Routine}
    {l : Lowered}
    (h : (Session.run { routine := .new name } calls).routine.lower slots = .ok (F, .ok l))
    {p : Procedure} (hcode : p.code = l.code) (hlocals : p.locals = l.locals)
    (hargs : p.args.length = slots.length) :
    p.verify = .ok () ∧ (∀ x ∈ l.code, ∀ t ∈ x.labels, 0 ≤ t ∧ t < l.code.length) ∧
      ∃ e, l.code.getLast? = some (.exit e) := by
  obtain ⟨s⟩ := exists_stages h
  have hplain := Session.plain_run (s := { routine := .new name }) (fun _ hi => by cases hi) calls
  refine ⟨s.verify_ok hplain hcode hlocals hargs, fun x hx t ht => ?_, ?_⟩
  · rw [← s.layout_final.1] at hx ⊢
    exact s.layable.labels_lt hx ht
  · rw [← s.layout_final.1]
    exact s.layable.getLast?_placedCode s.order_ne_nil

/-- Code in the entry, operands that nothing returned, a block that is left empty, a loop without a
return, and a block that nothing reaches. -/
def rawCalls : List BuildCall :=
  [.newVar "x", .createBlock, .createBlock, .createBlock, .createBlock,
    .add 0 (.action (.unknown 9)), .add 0 (.action (.move 7 (.reg 40))), .read 1 0,
    .add 1 (.action (.call 5 (-3) (.param 0))), .add 1 (.exit (.jump 2)), .add 2 (.exit (.jump 3)),
    .add 3 (.action (.call 1 2 (.stray 1))), .add 3 (.exit (.branch (.reg (-1)) 2 3)),
    .add 3 (.exit .ret), .read 4 7, .add 4 (.exit .ret)]

def rawSlots : List Slot := [{ var := 5, size := 1 }, { var := 0, size := 1 }]

def rawSignature : Signature where
  name := "raw"
  args := [{ name := "y", access := .ref, size := 1 }, { name := "x", access := .out, size := 1 }]

theorem lower_rawCalls_ok : ∃ F l,
    (Session.run { routine := .new "raw" } rawCalls).routine.lower rawSlots = .ok (F, .ok l) := by
  obtain ⟨F, l, h, -⟩ :=
    exists_lowered (Session.run { routine := .new "raw" } rawCalls).routine rawSlots
    (fun _ _ => true) (by decide +kernel)
  exact ⟨F, l, h⟩

theorem rawCalls_verify : ∃ F l,
    (Session.run { routine := .new "raw" } rawCalls).routine.lower rawSlots = .ok (F, .ok l) ∧
    Procedure.verify
      { name := "raw", signature := some rawSignature, code := l.code, locals := l.locals } =
        .ok () ∧
    (∀ x ∈ l.code, ∀ t ∈ x.labels, 0 ≤ t ∧ t < l.code.length) ∧
    ∃ e, l.code.getLast? = some (.exit e) := by
  obtain ⟨F, l, h⟩ := lower_rawCalls_ok
  exact ⟨F, l, h, lower_verifies "raw" rawCalls rawSlots h rfl rfl rfl⟩

end ProcCompiler
