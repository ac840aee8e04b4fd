import ProcCompiler.Proofs.Lowering.Ready
import ProcCompiler.Proofs.Lowering.Stages
import ProcCompiler.Proofs.Routine.History
/-!
# Which bindings of a block survive lowering

What arrives in a block is bound there unless the block binds the variable itself. So the registers
of a join and those that delivery hands down never take the place of a binding that the block made.
The binding of arguments does not ask: an entry that reads a variable before it writes it waits for
the argument, and the argument's register then displaces the written one.

* `Routine.Passes`: how far the lowering of a routine comes.
* `passes_of_lower`: a lowering with an outcome passes through all of it.
* `Tracked.joins`, `Tracked.arguments`, `Tracked.delivery`: what one pass does to the bindings.
* `binding_after_passes`: the bindings after every pass, and the one exception.
* `displaced_by_argument`: the exception occurs.
-/
namespace ProcCompiler

/-! ## Passes -/

/-- How far lowering has come, with what the passes to come look at. -/
inductive Progress where
  | single (f : Routine)
  | split (n : Needs) (f : Routine)
  | bound (n : Needs) (g : FlowGraph) (f : Routine)
  | lacking (f : Routine)
  | delivered (f : Routine)

namespace Progress

def routine : Progress → Routine
  | single f => f
  | split _ f => f
  | bound _ _ f => f
  | lacking f => f
  | delivered f => f

/-- The arguments were bound, or all of those that there are. -/
def entered : Progress → Bool
  | single _ => false
  | split _ _ => false
  | bound _ _ _ => true
  | lacking _ => true
  | delivered _ => true

end Progress

namespace Routine

/-- The lowering of `f` completes the passes up to here. -/
inductive Passes (f : Routine) (slots : List Slot) : Progress → Prop where
  | exit {g : FlowGraph} (hg : f.analyze = .ok g) : Passes f slots (.single (f.addExit g).1)
  | joins {f₁ f₂ : Routine} {g : FlowGraph} {n : Needs} {edges : List BlockId}
      (h : Passes f slots (.single f₁))
      (hg : f₁.analyze = .ok g) (hn : f₁.needs g = .ok n)
        (hs : f₁.splitJoins g n = .ok (f₂, edges)) :
      Passes f slots (.split n f₂)
  | arguments {f₂ f₃ : Routine} {g : FlowGraph} {n : Needs} (h : Passes f slots (.split n f₂))
      (hg : f₂.analyze = .ok g) (hb : f₂.bindArguments n slots = .ok (f₃, none)) :
        Passes f slots (.bound n g f₃)
  | missing {f₂ f₃ : Routine} {g : FlowGraph} {n : Needs} {e : SignatureError}
      (h : Passes f slots (.split n f₂))
      (hg : f₂.analyze = .ok g) (hb : f₂.bindArguments n slots = .ok (f₃, some e)) :
        Passes f slots (.lacking f₃)
  | delivery {f₃ F : Routine} {g : FlowGraph} {n : Needs} (h : Passes f slots (.bound n g f₃))
      (hc : f₃.checkNeeds g n = .ok ()) (hd : f₃.deliverAll g = .ok F) :
        Passes f slots (.delivered F)

/-- A lowering with an outcome completes every pass, or stops at the arguments. -/
theorem passes_of_lower {f F : Routine} {slots : List Slot} {result : Except SignatureError Lowered}
    (h : f.lower slots = .ok (F, result)) :
    (∃ l, result = .ok l) ∧ f.Passes slots (.delivered F) ∨ (∃ e, result = .error e) ∧
      f.Passes slots (.lacking F) := by
  rcases lower_cases h with
    ⟨l, rfl, ⟨s⟩⟩ | ⟨e, g₀, g₁, n, f₂, edges, g₂, rfl, h₀, h₁, hn, hs, h₂, hb⟩
  · have hsingle : f.Passes slots (.single s.single) := by
      rw [s.single_eq]
      exact .exit s.analyze_built
    have hsplit : f.Passes slots (.split s.needs s.split) :=
      .joins hsingle s.analyze_single s.needs_eq s.splitJoins_eq
    have hbound : f.Passes slots (.bound s.needs s.graph s.bound) :=
      .arguments hsplit s.analyze_split s.bindArguments_eq
    exact .inl ⟨⟨l, rfl⟩, .delivery hbound s.checkNeeds_eq s.deliverAll_eq⟩
  · exact .inr ⟨⟨e, rfl⟩, .missing (.joins (.exit h₀) h₁ hn hs) h₂ hb⟩

/-- The entry waits for `v`, and the argument for it has arrived. -/
def Displaced (f : Routine) (slots : List Slot) (p : Progress) (b : BlockId) (v : Var) : Prop :=
  p.entered = true ∧ b = entry ∧ v ∈ (f.block entry).params ∧ v ∈ slots.map Slot.var

end Routine

/-! ## A binding that a block has -/

theorem Routine.lt_of_binding? {f : Routine} {b : BlockId} {v : Var} {r : Reg}
    (h : (f.block b).binding? v = some r) :
    b < f.blocks.size := by
  by_contra hb
  rw [block_of_le (Nat.le_of_not_lt hb)] at h
  simp [Block.binding?] at h

/-- What arrives displaces no binding. -/
theorem Block.binding?_receive_of_some {b : Block} {v : Var} {r : Reg} (h : b.binding? v = some r)
    (w : Var) (s : Reg) :
    (b.receive w s).binding? v = some r := by
  rw [binding?_receive, h]
  rfl

theorem Block.binding?_receiveAll_of_some {v : Var} {r : Reg} :
    ∀ (arrivals : List (Var × Reg)) {b : Block}, b.binding? v = some r →
      (b.receiveAll arrivals).binding? v = some r
  | [], _, h => h
  | (w, s) :: arrivals, _, h =>
    binding?_receiveAll_of_some arrivals (binding?_receive_of_some h w s)

/-- What arrives in one block displaces no binding of any. -/
theorem Routine.binding?_modifyBlock_receive {f : Routine} {b : BlockId} {v : Var} {r : Reg}
    (h : (f.block b).binding? v = some r) (c : BlockId) (w : Var) (s : Reg) :
    ((f.modifyBlock c (·.receive w s)).block b).binding? v = some r := by
  by_cases hc : c = b
  · subst hc
    rw [block_modifyBlock_self (lt_of_binding? h)]
    exact Block.binding?_receive_of_some h w s
  · rw [block_modifyBlock_ne hc]
    exact h

/-- A split join keeps its bindings, and so do all others. -/
theorem SplitOf.binding?_of_some {f f' : Routine} {n : Needs} (h : SplitOf f n f') {b : BlockId}
    {v : Var} {r : Reg} (hb : (f.block b).binding? v = some r) :
    (f'.block b).binding? v = some r := by
  by_cases hj : f.graph.IsJoin n b
  · rw [h.block_join hj]
    exact Block.binding?_receiveAll_of_some _ hb
  · rw [h.block_other (Routine.lt_of_binding? hb) hj]
    exact hb

theorem binding?_deliverAll {f F : Routine} {g : FlowGraph} (h : f.deliverAll g = .ok F)
    {b : BlockId} {v : Var} {r : Reg} (hb : (f.block b).binding? v = some r) :
    (F.block b).binding? v = some r := by
  obtain ⟨n, t, -, ht, rfl, -⟩ := Routine.deliverAll_cases h
  exact Transit.run_preserves (P := fun u => (u.routine.block b).binding? v = some r)
    (Q := fun _ => True)
    (fun _ _ _ hu _ _ _ => Routine.binding?_modifyBlock_receive hu _ _ _) (fun _ _ _ _ => trivial)
    (fun _ _ _ hu _ => hu) ht hb

/-- A block that binds a variable needs it only if it waits for it. -/
theorem Routine.Needed.mem_params {f : Routine} {g : FlowGraph} {b : BlockId} {v : Var} {r : Reg}
    (h : Needed f g b v) (hb : (f.block b).binding? v = some r) : v ∈ (f.block b).params := by
  cases h with
  | param _ hv => exact hv
  | back _ hfree _ => rw [hb] at hfree; cases hfree

/-! ## One pass -/

/-- The bindings of `f` at some point of its lowering, and what the entry waits for and needs by
then. -/
structure Tracked (f : Routine) (slots : List Slot) (p : Progress) : Prop where
  size : f.blocks.size ≤ p.routine.blocks.size
  regs : f.regs.size ≤ p.routine.regs.size
  kept : ∀ b v r, (f.block b).binding? v = some r → ¬ f.Displaced slots p b v →
    (p.routine.block b).binding? v = some r
  given : ∀ b v, f.Displaced slots p b v → ∃ s : Nat, f.regs.size ≤ s ∧
    (p.routine.block b).binding? v = some (s : Reg) ∧
      p.routine.regInfo? s = some { var := v, slot := slotOf? slots v }
  waits : ∀ f₁, p = .single f₁ → (f₁.block entry).params = (f.block entry).params
  needs : ∀ n f₂, p = .split n f₂ → (∀ v ∈ (f.block entry).params, v ∈ n.of entry) ∧
    ∀ v r, (f.block entry).binding? v = some r → v ∈ n.of entry → v ∈ (f.block entry).params

namespace Tracked

variable {f : Routine} {slots : List Slot}

theorem exit {g : FlowGraph} (hg : f.analyze = .ok g) :
    Tracked f slots (.single (f.addExit g).1) where
  size := by simp [Progress.routine]
  regs := by simp [Progress.routine]
  kept b v r hb _ := (Routine.binding?_addExit (Routine.lt_of_binding? hb) v).trans hb
  given b v hd := nomatch hd.1
  waits f₁ he := by
    cases he
    exact Routine.params_addExit
      (Nat.lt_of_lt_of_le Nat.zero_lt_two (Routine.closed_of_analyze hg).body)
  needs n f₂ he := nomatch he

theorem joins {f₁ f₂ : Routine} {g : FlowGraph} {n : Needs} {edges : List BlockId}
    (h : Tracked f slots (.single f₁)) (hg : f₁.analyze = .ok g) (hn : f₁.needs g = .ok n)
    (hs : f₁.splitJoins g n = .ok (f₂, edges)) :
    Tracked f slots (.split n f₂) := by
  obtain ⟨hsplit, -⟩ := Routine.splitOf_of_splitJoins hg hn hs
  have hkept : ∀ b v r, (f.block b).binding? v = some r → (f₁.block b).binding? v = some r :=
    fun b v r hb =>
    h.kept b v r hb fun hd => nomatch hd.1
  have hwaits := h.waits f₁ rfl
  refine ⟨?_, ?_, fun b v r hb _ => hsplit.binding?_of_some (hkept b v r hb),
    fun b v hd => (nomatch hd.1), fun _ he => (nomatch he), ?_⟩
  · exact Nat.le_trans h.size (Nat.le.intro hsplit.size.symm)
  · exact Nat.le_trans h.regs (Nat.le.intro hsplit.split.regs_size.symm)
  · rintro _ _ ⟨⟩
    refine ⟨fun v hv => ?_, fun v r hb hv => ?_⟩
    · exact hsplit.mem_of_param hsplit.closed.entry_mem_order (hwaits ▸ hv)
    · rw [← hwaits]
      exact ((Routine.mem_of_iff hn).mp hv).mem_params (hkept entry v r hb)

/-- The arguments that there are get bound. The entry's own bindings are overwritten here. -/
theorem arguments {f₂ f₃ : Routine} {n : Needs} {e : Option SignatureError} {p : Progress}
    (h : Tracked f slots (.split n f₂)) (h0 : entry < f₂.blocks.size)
    (hb : f₂.bindArguments n slots = .ok (f₃, e)) (hp : p = .lacking f₃ ∨ ∃ g, p = .bound n g f₃) :
    Tracked f slots p := by
  obtain ⟨-, hargued, -⟩ := bindArguments_argued h0 hb
  obtain ⟨hneeded, hparams⟩ := h.needs n f₂ rfl
  have hroutine : p.routine = f₃ ∧ p.entered = true := by
    rcases hp with rfl | ⟨g, rfl⟩ <;> exact ⟨rfl, rfl⟩
  have hkept : ∀ b v r, (f.block b).binding? v = some r → (f₂.block b).binding? v = some r :=
    fun b v r hv =>
    h.kept b v r hv fun hd => nomatch hd.1
  refine ⟨?_, ?_, fun b v r hv hd => ?_, fun b v hd => ?_, ?_, ?_⟩
  · rw [hroutine.1, hargued.size]
    exact h.size
  · rw [hroutine.1]
    exact Nat.le_trans h.regs hargued.size_le
  · rw [hroutine.1]
    by_cases hbe : b = entry
    · subst hbe
      rw [hargued.kept v]
      · exact hkept entry v r hv
      · exact fun hm => hd ⟨hroutine.2, rfl, hparams v r hv hm.1, hm.2⟩
    · rw [hargued.other b hbe]
      exact hkept b v r hv
  · obtain ⟨-, rfl, hv, hs⟩ := hd
    obtain ⟨s, hle, hbind, hinfo⟩ := hargued.given v (hneeded v hv) hs
    rw [hroutine.1]
    exact ⟨s, Nat.le_trans h.regs hle, hbind, hinfo⟩
  · rintro _ rfl
    rcases hp with hp | ⟨g, hp⟩ <;> cases hp
  · rintro _ _ rfl
    rcases hp with hp | ⟨g, hp⟩ <;> cases hp

theorem delivery {f₃ F : Routine} {g : FlowGraph} {n : Needs} (h : Tracked f slots (.bound n g f₃))
    (hd : f₃.deliverAll g = .ok F) : Tracked f slots (.delivered F) := by
  have hshape := sameShape_deliverAll hd
  refine ⟨?_, ?_, fun b v r hv hk => binding?_deliverAll hd (h.kept b v r hv hk), fun b v hk => ?_,
    fun _ he => (nomatch he), fun _ _ he => nomatch he⟩
  · exact Nat.le_trans h.size (Nat.le_of_eq hshape.size.symm)
  · exact Nat.le_trans h.regs (Nat.le_of_eq (congrArg Array.size hshape.regs.symm))
  · obtain ⟨s, hle, hbind, hinfo⟩ := h.given b v hk
    refine ⟨s, hle, binding?_deliverAll hd hbind, ?_⟩
    show F.regs[s]? = _
    rw [hshape.regs]
    exact hinfo

end Tracked

/-! ## All passes -/

theorem Routine.Passes.tracked {f : Routine} {slots : List Slot} {p : Progress}
    (h : f.Passes slots p) :
    Tracked f slots p := by
  -- the entry of the routine that was split is there, since the routine was analyzed
  have hentry : ∀ {f₂ : Routine} {g : FlowGraph}, f₂.analyze = .ok g → entry < f₂.blocks.size :=
    fun hg =>
    Nat.lt_of_lt_of_le Nat.zero_lt_two (closed_of_analyze hg).body
  induction h with
  | exit hg => exact .exit hg
  | joins _ hg hn hs ih => exact ih.joins hg hn hs
  | arguments _ hg hb ih => exact ih.arguments (hentry hg) hb (.inr ⟨_, rfl⟩)
  | missing _ hg hb ih => exact ih.arguments (hentry hg) hb (.inl rfl)
  | delivery _ _ hd ih => exact ih.delivery hd

/-- A binding that a block made itself is kept by every pass, with one exception: where the entry
waits for a variable that has an argument, the argument's register takes the place of whatever the
entry bound the variable to. -/
theorem binding_after_passes {f : Routine} {slots : List Slot} {p : Progress}
    (hp : f.Passes slots p) {b : BlockId} {v : Var} {r : Reg}
    (hb : (f.block b).binding? v = some r) :
    (¬ f.Displaced slots p b v → (p.routine.block b).binding? v = some r) ∧
    (f.Displaced slots p b v → ∃ s : Nat, f.regs.size ≤ s ∧
      (p.routine.block b).binding? v = some (s : Reg) ∧
      p.routine.regInfo? s = some { var := v, slot := slotOf? slots v }) :=
  ⟨hp.tracked.kept b v r hb, hp.tracked.given b v⟩

/-- The entry hands `x` to a function and keeps its result; the body copies `x` to `y`. -/
def eagerRoutine : Routine := (History.of "eager"
  [.newVar "x", .newVar "y", .createBlock, .read 0 0, .write 0 0,
    .add 0 (.action (.call 0 0 (.param 0))), .read 1 0, .write 1 1, .add 1
    (.action (.move 1 (.param 0))), .add 1 (.exit .ret)]).routine

/-- `x` is an argument. -/
def eagerSlots : List Slot := [{ var := 0, size := 8 }]

/-- The body keeps its binding of `y`; the entry binds `x` to the argument. -/
theorem binding_after_passes_eager : ∃ F, eagerRoutine.Passes eagerSlots (.delivered F) ∧
    (F.block 1).binding? 1 = some 1 ∧ ∃ s : Nat, 2 ≤ s ∧
    (F.block entry).binding? 0 = some (s : Reg) ∧
      F.regInfo? s = some { var := 0, slot := some 0 } := by
  obtain ⟨F, l, hl, -⟩ :=
    exists_lowered eagerRoutine eagerSlots (fun _ _ => true) (by decide +kernel)
  have hp : eagerRoutine.Passes eagerSlots (.delivered F) := by
    rcases Routine.passes_of_lower hl with ⟨-, hp⟩ | ⟨⟨e, he⟩, -⟩
    · exact hp
    · cases he
  have hy : (eagerRoutine.block 1).binding? 1 = some 1 := by decide +kernel
  have hx : (eagerRoutine.block entry).binding? 0 = some 0 := by decide +kernel
  refine ⟨F, hp, (binding_after_passes hp hy).1 fun hd => absurd hd.2.1 (by decide), ?_⟩
  exact (binding_after_passes hp hx).2 ⟨rfl, rfl, by decide +kernel, by decide⟩

/-- The result that the entry keeps in `x` is lost: after lowering the entry binds `x` to the
argument, and the body copies the argument. -/
theorem displaced_by_argument : (eagerRoutine.block entry).binding? 0 = some 0 ∧
    ∃ F l, eagerRoutine.lower eagerSlots = .ok (F, .ok l) ∧ (F.block entry).binding? 0 = some 2 ∧
      l.code = [.action (.move (.frame 0) (.arg 0)), .action (.call 0 (.frame 0) (.frame 0)),
        .action (.move (.frame 1) (.arg 0)), .exit .ret] := by
  refine ⟨by decide +kernel, ?_⟩
  obtain ⟨F, l, hl, h⟩ := exists_lowered eagerRoutine eagerSlots (fun F l =>
    decide ((F.block entry).binding? 0 = some 2) &&
      decide (l.code =
        [.action (.move (.frame 0) (.arg 0)), .action (.call 0 (.frame 0) (.frame 0)),
          .action (.move (.frame 1) (.arg 0)), .exit .ret])) (by decide +kernel)
  rw [Bool.and_eq_true, decide_eq_true_eq, decide_eq_true_eq] at h
  exact ⟨F, l, hl, h⟩

end ProcCompiler
