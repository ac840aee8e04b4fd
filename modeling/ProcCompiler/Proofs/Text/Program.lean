import ProcCompiler.Bytecode.Text
import ProcCompiler.Proofs.Compilation.Accepted
import ProcCompiler.Proofs.Lowering.Numbering
import ProcCompiler.Proofs.Syntax.Legible
import ProcCompiler.Proofs.Text.Reading
/-!
# The text of a program determines the program

A program whose names are identifiers, whose registers are arguments or locals and whose procedures
have a signature of their name is told from its text. Each part of the text is read with what
follows it: an instruction up to its remark or the end of its line, the code up to the first line
that is not indented, the foreign functions up to a line of another kind. All compiled programs are
of this form.

* `readable_instruction`, `readable_line`: one line of code.
* `readable_procedure`, `readable_foreign`: the parts of a program.
* `Program.text_injOn`: the whole program.
* `Program.legible_of_compile`: compiled programs are legible.
* `compiled_eq_of_text_eq`: compiled programs with the same text are equal.
-/
namespace ProcCompiler

/-! ## Lines of code -/

theorem readable_register : Readable Register.text Register.IsPlaced Apart := by
  intro r s rest rest' hr hs hrest hrest' h
  cases r with
  | other kind i => cases hr
  | frame i =>
    cases s with
    | other kind j => cases hs
    | arg j => simp [Register.text] at h
    | frame j =>
      simp only [Register.text, String.toList_append, List.append_assoc] at h
      obtain ⟨rfl, hend⟩ := readable_int trivial trivial hrest hrest' (List.append_cancel_left h)
      exact ⟨rfl, hend⟩
  | arg i =>
    cases s with
    | other kind j => cases hs
    | frame j => simp [Register.text] at h
    | arg j =>
      simp only [Register.text, String.toList_append, List.append_assoc] at h
      obtain ⟨rfl, hend⟩ := readable_int trivial trivial hrest hrest' (List.append_cancel_left h)
      exact ⟨rfl, hend⟩

/-- An instruction with arguments and locals only. -/
def Instruction.IsPlaced (x : Instruction) : Prop := ∀ r ∈ x.registers, r.IsPlaced

theorem isPlaced_move {o a : Register} : Instruction.IsPlaced (.action (.move o a)) ↔ o.IsPlaced ∧
    a.IsPlaced := by
  simp [Instruction.IsPlaced, Instruction.registers, and_comm]

theorem isPlaced_call {fn : FuncId} {o a : Register} :
    Instruction.IsPlaced (.action (.call fn o a)) ↔ o.IsPlaced ∧ a.IsPlaced := by
  simp [Instruction.IsPlaced, Instruction.registers, and_comm]

theorem isPlaced_branch {c : Register} {t u : Int} :
    Instruction.IsPlaced (.exit (.branch c t u)) ↔ c.IsPlaced := by
  simp [Instruction.IsPlaced, Instruction.registers]

theorem readable_action : Readable (Action.text Register.text Register.text)
    (fun a => Instruction.IsPlaced (.action a)) Apart := by
  intro x y rest rest' hx hy hrest hrest' h
  -- different operations differ in their first letter
  cases x with
  | move o a =>
    cases y with
    | call fn' o' a' => simp [Action.text] at h
    | unknown code' => simp [Action.text] at h
    | move o' a' =>
      obtain ⟨ho, ha⟩ := isPlaced_move.mp hx
      obtain ⟨ho', ha'⟩ := isPlaced_move.mp hy
      simp only [Action.text, String.toList_append, List.append_assoc] at h
      obtain ⟨rfl, h₁⟩ :=
        readable_register.upTo (apart_mark (by decide)) ho ho' (List.append_cancel_left h)
      obtain ⟨rfl, h₂⟩ := readable_register ha ha' hrest hrest' h₁
      exact ⟨rfl, h₂⟩
  | call fn o a =>
    cases y with
    | move o' a' => simp [Action.text] at h
    | unknown code' => simp [Action.text] at h
    | call fn' o' a' =>
      obtain ⟨ho, ha⟩ := isPlaced_call.mp hx
      obtain ⟨ho', ha'⟩ := isPlaced_call.mp hy
      simp only [Action.text, String.toList_append, List.append_assoc] at h
      obtain ⟨rfl, h₁⟩ :=
        readable_int.upTo (apart_mark (by decide)) trivial trivial (List.append_cancel_left h)
      obtain ⟨rfl, h₂⟩ := readable_register.upTo (apart_mark (by decide)) ho ho' h₁
      obtain ⟨rfl, h₃⟩ := readable_register ha ha' hrest hrest' h₂
      exact ⟨rfl, h₃⟩
  | unknown code =>
    cases y with
    | move o' a' => simp [Action.text] at h
    | call fn' o' a' => simp [Action.text] at h
    | unknown code' =>
      simp only [Action.text, String.toList_append, List.append_assoc] at h
      obtain ⟨rfl, h₁⟩ :=
        readable_int.upTo (apart_mark (by decide)) trivial trivial (List.append_cancel_left h)
      exact ⟨rfl, h₁⟩

theorem readable_exit : Readable (Exit.text Register.text (toString : Int → String))
    (fun e => Instruction.IsPlaced (.exit e)) Apart := by
  intro x y rest rest' hx hy hrest hrest' h
  cases x with
  | jump t =>
    cases y with
    | branch c' t' u' => simp [Exit.text] at h
    | ret => simp [Exit.text] at h
    | jump t' =>
      simp only [Exit.text, String.toList_append, List.append_assoc] at h
      obtain ⟨rfl, h₁⟩ := readable_int trivial trivial hrest hrest' (List.append_cancel_left h)
      exact ⟨rfl, h₁⟩
  | branch c t u =>
    cases y with
    | jump t' => simp [Exit.text] at h
    | ret => simp [Exit.text] at h
    | branch c' t' u' =>
      simp only [Exit.text, String.toList_append, List.append_assoc] at h
      obtain ⟨rfl, h₁⟩ := readable_register.upTo (apart_mark (by decide)) (isPlaced_branch.mp hx)
        (isPlaced_branch.mp hy) (List.append_cancel_left h)
      obtain ⟨rfl, h₂⟩ := readable_int.upTo (apart_mark (by decide)) trivial trivial h₁
      obtain ⟨rfl, h₃⟩ := readable_int trivial trivial hrest hrest' h₂
      exact ⟨rfl, h₃⟩
  | ret =>
    cases y with
    | jump t' => simp [Exit.text] at h
    | branch c' t' u' => simp [Exit.text] at h
    | ret => exact ⟨rfl, List.append_cancel_left h⟩

/-- An action and an exit differ in their first letter. -/
theorem action_text_ne (a : Action Register Register) (e : Exit Register Int)
    (rest rest' : List Char) :
    (a.text Register.text Register.text).toList ++ rest ≠ (e.text Register.text toString).toList ++
      rest' := by
  cases a <;> cases e <;> simp [Action.text, Exit.text]

theorem readable_instruction : Readable Instruction.text Instruction.IsPlaced Apart := by
  intro x y rest rest' hx hy hrest hrest' h
  cases x with
  | action a =>
    cases y with
    | action b =>
      obtain ⟨rfl, hend⟩ := readable_action hx hy hrest hrest' h
      exact ⟨rfl, hend⟩
    | exit e => exact absurd h (action_text_ne a e rest rest')
  | exit e =>
    cases y with
    | action a => exact absurd h.symm (action_text_ne a e rest' rest)
    | exit e' =>
      obtain ⟨rfl, hend⟩ := readable_exit hx hy hrest hrest' h
      exact ⟨rfl, hend⟩

namespace Procedure

theorem apart_remark (table : Option ForeignTable) (x : Instruction) (rest : List Char) :
    Apart ((remark table x).toList ++ ("\n".toList ++ rest)) := by
  unfold remark
  split
  · split
    · rw [String.toList_append, List.append_assoc]
      exact apart_mark (by decide) _
    · exact apart_mark (by decide : isMark "\n" = true) rest
  · exact apart_mark (by decide : isMark "\n" = true) rest

/-- The place of a line is known, so its offset and the filling before it tell nothing new. The
remark is the same for the same instruction. -/
theorem readable_line (table : Option ForeignTable) (pc : Nat) :
    Readable (lineText table pc) Instruction.IsPlaced fun _ => True := by
  intro x y rest rest' hx hy _ _ h
  simp only [lineText, String.toList_append, List.append_assoc] at h
  have h₁ := List.append_cancel_left (List.append_cancel_left (List.append_cancel_left h))
  obtain ⟨rfl, h₂⟩ :=
    readable_instruction hx hy (apart_remark table x rest) (apart_remark table y rest') h₁
  exact ⟨rfl, List.append_cancel_left (List.append_cancel_left h₂)⟩

/-- The text does not start with an indented line. -/
def NoLine (rest : List Char) : Prop := rest.head? ≠ some '\t'

theorem readable_code (table : Option ForeignTable) :
    Readable (fun code : Bytecode => String.join (code.zipIdx.map fun x => lineText table x.2 x.1))
      (∀ x ∈ ·, x.IsPlaced) NoLine :=
  readable_numbered (readable_line table) (fun _ _ => trivial) (fun _ _ _ _ => trivial)
    (fun _ _ _ _ h => h (by simp only [lineText, String.toList_append, List.append_assoc]; rfl)) 0

end Procedure

/-! ## Procedures -/

theorem readable_access : Readable Access.text (fun _ => True) Apart := by
  intro x y rest rest' _ _ _ _ h
  cases x with
  | ref =>
    cases y with
    | ref => exact ⟨rfl, List.append_cancel_left h⟩
    | _ => simp [Access.text] at h
  | mutable =>
    cases y with
    | mutable => exact ⟨rfl, List.append_cancel_left h⟩
    | _ => simp [Access.text] at h
  | out =>
    cases y with
    | out => exact ⟨rfl, List.append_cancel_left h⟩
    | _ => simp [Access.text] at h
  | other code =>
    cases y with
    | other code' =>
      simp only [Access.text, String.toList_append, List.append_assoc] at h
      obtain ⟨rfl, h₁⟩ :=
        readable_int.upTo (apart_mark (by decide)) trivial trivial (List.append_cancel_left h)
      exact ⟨rfl, h₁⟩
    | _ => simp [Access.text] at h

theorem readable_argument : Readable Argument.text (fun a => isIdentifier a.name = true) Apart := by
  intro a b rest rest' ha hb hrest hrest' h
  obtain ⟨name, access, size⟩ := a
  obtain ⟨name', access', size'⟩ := b
  simp only [Argument.text, String.toList_append, List.append_assoc] at h
  obtain ⟨rfl, h₁⟩ := readable_access.upTo (apart_mark (by decide)) trivial trivial h
  obtain ⟨rfl, h₂⟩ := readable_word.upTo (apart_mark (by decide)) ha hb h₁
  obtain ⟨rfl, h₃⟩ := readable_int trivial trivial hrest hrest' h₂
  exact ⟨rfl, h₃⟩

theorem Access.text_head (x : Access) (rest : List Char) :
    (x.text.toList ++ rest).head? ≠ some ')' := by
  cases x <;> simp [text]

theorem readable_arguments :
    Readable (fun as : List Argument => ", ".intercalate (as.map Argument.text))
      (∀ a ∈ ·, isIdentifier a.name = true) fun rest => rest.head? = some ')' := by
  refine readable_separated readable_argument ?_ (fun rest => ⟨apart_mark (by decide) rest, ?_⟩)
    fun a rest _ => ?_
  · intro rest h c hc
    rw [h] at hc
    cases hc
    rfl
  · simp
  · simp only [Argument.text, String.toList_append, List.append_assoc]
    exact a.access.text_head _

/-- The names are identifiers, the registers are arguments and locals, and the signature has the
procedure's name. -/
structure Procedure.Legible (p : Procedure) : Prop where
  name : isIdentifier p.name = true
  signature : p.signature = some { name := p.name, args := p.args }
  args : ∀ a ∈ p.args, isIdentifier a.name = true
  code : ∀ x ∈ p.code, Instruction.IsPlaced x

theorem readable_procedure (table : Option ForeignTable) :
    Readable (Procedure.text table) Procedure.Legible Procedure.NoLine := by
  intro p q rest rest' hp hq hrest hrest' h
  simp only [Procedure.text, String.toList_append, List.append_assoc] at h
  obtain ⟨hname, h₁⟩ :=
    readable_word.upTo (apart_mark (by decide)) hp.name hq.name (List.append_cancel_left h)
  obtain ⟨hargs, h₂⟩ := readable_arguments.upTo (fun _ => rfl) hp.args hq.args h₁
  obtain ⟨hlocals, h₃⟩ := readable_int.upTo (apart_mark (by decide)) trivial trivial h₂
  obtain ⟨hcode, h₄⟩ := Procedure.readable_code table hp.code hq.code hrest hrest' h₃
  have hsignature : p.signature = q.signature := by rw [hp.signature, hq.signature, hname, hargs]
  obtain ⟨name, signature, code, locals⟩ := p
  obtain ⟨name', signature', code', locals'⟩ := q
  simp only at hname hsignature hcode hlocals
  subst hname hsignature hcode hlocals
  exact ⟨rfl, h₄⟩

/-! ## Programs -/

/-- A foreign function stands at its place, so the number in its line tells nothing new. -/
theorem readable_foreign : Readable (fun names : List String => Program.foreignText { names })
    (∀ name ∈ ·, isIdentifier name = true) fun rest => rest.head? ≠ some 'f' := by
  have hline : ∀ i : Nat, Readable (fun name => "ffi " ++ name ++ " // f" ++ toString i ++ "\n")
      (fun name => isIdentifier name = true) fun _ => True := by
    intro i name name' rest rest' hname hname' _ _ h
    simp only [String.toList_append, List.append_assoc] at h
    obtain ⟨rfl, h₁⟩ :=
      readable_word.upTo (apart_mark (by decide)) hname hname' (List.append_cancel_left h)
    exact ⟨rfl, List.append_cancel_left (List.append_cancel_left h₁)⟩
  refine readable_numbered hline (fun _ _ => trivial) (fun _ _ _ _ => trivial) ?_ 0
  intro i name rest _
  simp [String.toList_append]

structure Program.Legible (p : Program) : Prop where
  foreign : ∀ name ∈ p.foreign.names, isIdentifier name = true
  procs : ∀ q ∈ p.procs, q.Legible

/-- The procedures after their foreign functions. A blank line stands before each, but for the first
one of all. -/
theorem readable_procedures (t : ForeignTable) : Readable (fun ps : List Procedure => String.join
    (ps.zipIdx.map fun x => (if x.2 = 0 ∧ t.size = 0 then "" else "\n") ++ x.1.text (some t)))
    (∀ p ∈ ·, p.Legible) (· = []) := by
  have hproc : ∀ i : Nat,
      Readable (fun p : Procedure => (if i = 0 ∧ t.size = 0 then "" else "\n") ++ p.text (some t))
      Procedure.Legible Procedure.NoLine := by
    intro i p q rest rest' hp hq hrest hrest' h
    simp only [String.toList_append, List.append_assoc] at h
    exact readable_procedure (some t) hp hq hrest hrest' (List.append_cancel_left h)
  refine readable_numbered hproc ?_ ?_ ?_ 0
  · intro rest h
    simp [Procedure.NoLine, h]
  · intro i p rest _
    simp [Procedure.NoLine, String.toList_append]
  · intro i p rest _ h
    simp [Procedure.text, String.toList_append] at h

namespace Program

theorem text_eq (p : Program) : p.text = foreignText { names := p.foreign.names } ++ String.join
    (p.procs.zipIdx.map fun x => (if x.2 = 0 ∧ p.foreign.size = 0 then "" else "\n") ++
      x.1.text (some p.foreign)) :=
  rfl

/-- What follows the foreign functions is the end of the text, a blank line or a procedure. -/
theorem head?_procedures (t : ForeignTable) (ps : List Procedure) :
    (String.join (ps.zipIdx.map fun x =>
    (if x.2 = 0 ∧ t.size = 0 then "" else "\n") ++ x.1.text (some t))).toList.head? ≠ some 'f' := by
  cases ps with
  | nil => simp
  | cons p ps =>
    simp only [List.zipIdx_cons, List.map_cons, String.toList_join, List.flatMap_cons,
      String.toList_append, List.append_assoc, Procedure.text]
    split <;> simp

/-- A legible program is determined by its text. -/
theorem text_injOn {p q : Program} (hp : p.Legible) (hq : q.Legible) (h : p.text = q.text) :
    p = q := by
  have h := congrArg String.toList h
  rw [text_eq, text_eq, String.toList_append, String.toList_append] at h
  obtain ⟨⟨names⟩, ps⟩ := p
  obtain ⟨⟨names'⟩, qs⟩ := q
  obtain ⟨rfl, h₁⟩ :=
    readable_foreign hp.foreign hq.foreign (head?_procedures _ ps) (head?_procedures _ qs) h
  have h₂ := congrArg (· ++ []) h₁
  obtain ⟨rfl, -⟩ := readable_procedures { names } hp.procs hq.procs rfl rfl h₂
  rfl

end Program

/-! ## Compiled programs -/

/-- The signature of a procedure has its name and the names of its arguments. -/
theorem ProcDecl.signature_names {x : ProcDecl} {s : Signature} (h : x.signature = .ok s) :
    s.name = x.name.name ∧ s.args.map Argument.name = x.args.map (·.name.name) := by
  rcases declareArgs_cases x.args { name := x.name.name } with ⟨-, s', hs', hname, hargs⟩ |
    ⟨-, e, he, -⟩
  · cases h.symm.trans hs'
    exact ⟨hname, hargs⟩
  · cases h.symm.trans he

/-- Every new procedure has the signature that one of the file declares. -/
theorem SourceFile.signed_of_compileProcs {xs : List ProcDecl} {program program' : Program}
    (h : (compileProcs program xs).result = .ok program') :
    ∀ p ∈ program'.procs, p ∈ program.procs ∨
      ∃ x ∈ xs, ∃ s, x.signature = .ok s ∧ p.signature = some s ∧ p.name = s.name := by
  fun_induction compileProcs program xs with
  | case1 => cases h; exact fun p hp => .inl hp
  | case2 => cases h
  | case3 => cases h
  | case4 => cases h
  | case5 program x xs _ signature f slots hx q hq more ih =>
    intro p hp
    rcases ih h p hp with hp | ⟨y, hy, hsigned⟩
    · rcases List.mem_append.mp hp with hp | hp
      · exact .inl hp
      · obtain rfl := List.mem_singleton.mp hp
        obtain ⟨s, hs, hrest⟩ := ok_of_bind hx
        obtain ⟨r, -, hr⟩ := ok_of_bind hrest
        cases hr
        unfold lowerDraft at hq
        split at hq
        · cases hq
        · cases hq
        · cases hq
          exact .inr ⟨x, by simp, signature, hs, rfl, rfl⟩
    · exact .inr ⟨y, by simp [hy], hsigned⟩

theorem CompiledTo.placed {table : ForeignTable} {x : ProcDecl} {p : Procedure}
    (h : CompiledTo table x p) :
    ∀ y ∈ p.code, Instruction.IsPlaced y := by
  obtain ⟨f, slots, P, n, into, f₂, F, h⟩ := h
  intro y hy r hr
  rw [h.code] at hy
  obtain ⟨z, -, rfl⟩ := List.mem_map.mp hy
  rw [Routine.registers_placed] at hr
  obtain ⟨r', -, rfl⟩ := List.mem_map.mp hr
  unfold Routine.place
  split <;> trivial

/-- A text that is compiled was parsed, and verification changes nothing. -/
theorem exists_parsed {bytes : List UInt8} {p : Program} (h : (compile bytes).result = .ok p) :
    ∃ file, SourceFile.parse bytes = .ok file ∧ file.compile.result = .ok p := by
  rw [compile] at h
  cases hparse : SourceFile.parse bytes with
  | error e => rw [hparse] at h; cases h
  | ok file =>
    rw [hparse] at h
    obtain ⟨q, hq, hverify⟩ := ok_of_bind h
    cases hfile : file.compile.result with
    | error e => rw [hfile] at hq; cases hq
    | ok q' =>
      rw [hfile] at hq
      cases hq
      obtain ⟨u, -, hu⟩ := ok_of_bind hverify
      cases hu
      exact ⟨file, rfl, hfile⟩

theorem SourceFile.legible_of_compile {file : SourceFile} (hf : file.Legible) {p : Program}
    (h : file.compile.result = .ok p) : p.Legible := by
  refine ⟨fun name hname => ?_, fun q hq => ?_⟩
  · rcases compile_cases (known_of_compile h) with ⟨-, ps, hps, -⟩ | ⟨-, e, he, -⟩
    · cases h.symm.trans hps
      obtain ⟨id, hid, rfl⟩ := List.mem_map.mp hname
      exact (hf.foreign id hid).1
    · cases h.symm.trans he
  · obtain ⟨x, hx, hto⟩ := exists_compiledTo h hq
    have hprocs : ∃ y ∈ file.procs, ∃ s, y.signature = .ok s ∧ q.signature = some s ∧
        q.name = s.name := by
      unfold compile at h
      split at h
      · cases h
      · exact (signed_of_compileProcs h q hq).resolve_left (by simp)
    obtain ⟨y, hy, s, hs, hqs, hname⟩ := hprocs
    have hargs : q.args = s.args := by rw [Procedure.args, hqs]
    refine ⟨hto.name_eq ▸ (hf.procs x hx).name.1, by rw [hqs, hname, hargs], ?_, hto.placed⟩
    intro a ha
    have hmem : a.name ∈ s.args.map Argument.name := List.mem_map_of_mem (hargs ▸ ha)
    rw [(y.signature_names hs).2] at hmem
    obtain ⟨d, hd, hda⟩ := List.mem_map.mp hmem
    exact hda ▸ ((hf.procs y hy).args d hd).name.1

theorem Program.legible_of_compile {bytes : List UInt8} {p : Program}
    (h : (compile bytes).result = .ok p) :
    p.Legible := by
  obtain ⟨file, hparse, hfile⟩ := exists_parsed h
  exact SourceFile.legible_of_compile (SourceFile.legible_of_parse hparse) hfile

/-- Two texts that are compiled to programs with the same text are compiled to the same program. -/
theorem compiled_eq_of_text_eq {bytes bytes' : List UInt8} {p p' : Program}
    (h : (compile bytes).result = .ok p) (h' : (compile bytes').result = .ok p')
    (htext : p.text = p'.text) : p = p' :=
  Program.text_injOn (Program.legible_of_compile h) (Program.legible_of_compile h') htext

/-- Calls a function on an argument until it answers. -/
def retryText : List UInt8 :=
  utf8 "ffi ask proc retry(mut x 8) \x7b again: call ask x if x goto done else again done: \x7d"

/-- The same with another layout, other labels and a return that was left out. -/
def retryTextRespelled : List UInt8 :=
  utf8 "ffi ask // once\nproc retry(mut x 008)\x7bl:call ask x if x goto m else l m:return\x7d"

/-- The text of the program that both are compiled to. -/
def retryOutput : String :=
  "ffi ask // f0\n\nproc retry(mut x 8) // locals 2\n\t  0  move\tl0, a0\n\t  1  move\tl1, l0\n" ++
  "\t  2  call\tf0, l1, l1\t// ask\n\t  3  branch\tl1, 4, 5\n\t  4  jump\t7\n" ++
  "\t  5  move\tl0, l1\n\t  6  jump\t1\n\t  7  return\n"

theorem compiled_eq_of_text_eq_retry : ∃ p, (compile retryText).result = .ok p ∧
    (compile retryTextRespelled).result = .ok p ∧ p.text = retryOutput := by
  obtain ⟨p, hp, htext⟩ := exists_of_any (p := fun p : Program => p.text = retryOutput)
    (by decide +kernel :
      (compile retryText).result.toOption.any (fun p : Program => p.text = retryOutput) = true)
  obtain ⟨p', hp', htext'⟩ := exists_of_any (p := fun p : Program => p.text = retryOutput)
    (by decide +kernel :
      (compile retryTextRespelled).result.toOption.any
        (fun p : Program => p.text = retryOutput) = true)
  have he := compiled_eq_of_text_eq hp hp'
      ((of_decide_eq_true htext).trans (of_decide_eq_true htext').symm)
  exact ⟨p, hp, he ▸ hp', of_decide_eq_true htext⟩

end ProcCompiler
