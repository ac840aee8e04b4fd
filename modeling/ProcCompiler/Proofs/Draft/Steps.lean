import ProcCompiler.Draft
import ProcCompiler.Proofs.Draft.Sketch
/-!
# What drafting keeps

While a procedure is drafted, every block was built from a listing over variables. `Draft.Inv` holds
after every statement: the current block is open, the block of a label that is used but not yet
defined is untouched, and every other block of the body is complete and jumps to blocks of the body.
So no call of the builder can fail.

* `Inv.edit`: a change to the current block.
* `Inv.enter`: a label becomes the current block.
* `Inv.move`, `Inv.call`, `Inv.goto`, `Inv.branch`, `Inv.ret`, `Inv.label`: what each statement
  keeps.
-/
namespace ProcCompiler

/-- The register was made for the variable. -/
def Routine.Owns (f : Routine) (r : Reg) (v : Var) : Prop := (f.regInfo? r).map RegInfo.var = some v

theorem Routine.owns_pushReg {f : Routine} (info : RegInfo) {r : Reg} {v : Var} (h : f.Owns r v) :
    (f.pushReg info).Owns r v := by
  unfold Owns regInfo? at *
  cases r with
  | negSucc k => cases h
  | ofNat k =>
    simp only at *
    obtain ⟨x, hx, hv⟩ := Option.map_eq_some_iff.mp h
    have hlt := (Array.getElem?_eq_some_iff.mp hx).1
    simp only [pushReg, Array.getElem?_push, Nat.ne_of_lt hlt, if_false, hx, Option.map_some, hv]

theorem Routine.owns_new (f : Routine) (info : RegInfo) :
    (f.pushReg info).Owns (f.regs.size : Nat) info.var := by
  show (Option.map RegInfo.var (f.regs.push info)[f.regs.size]?) = some info.var
  simp

/-! ## Statements in a block -/

namespace Routine

/-- The routine with an action on variables in a block: it reads `v`, and `w` gets a new
register. -/
def act (f : Routine) (b : BlockId) (a : Action Var Var) (v w : Var) : Routine :=
  ((((f.modifyBlock b fun _ => ((f.block b).read v).2).pushReg { var := w }).modifyBlock b
    (·.bind w f.regs.size)).modifyBlock b
      (·.add (.action
        ((a.mapRead fun _ => ((f.block b).read v).1).mapWrite fun _ => (f.regs.size : Reg)))))

/-- The routine with an exit that depends on a variable. -/
def leaveOn (f : Routine) (b : BlockId) (e : Exit Var Label) (v : Var) : Routine :=
  (f.modifyBlock b fun _ => ((f.block b).read v).2).modifyBlock b
    (·.add (.exit (e.mapRead fun _ => ((f.block b).read v).1)))

section

variable {f : Routine} {b : BlockId} {a : Action Var Var} {e : Exit Var Label} {v w : Var}

@[simp] theorem size_act : (f.act b a v w).blocks.size = f.blocks.size := by simp [act, pushReg]

@[simp] theorem size_leaveOn : (f.leaveOn b e v).blocks.size = f.blocks.size := by simp [leaveOn]

theorem block_act_self (hb : b < f.blocks.size) : (f.act b a v w).block b =
    ((((f.block b).read v).2.bind w f.regs.size).add
      (.action ((a.mapRead fun _ => ((f.block b).read v).1).mapWrite fun _ =>
        (f.regs.size : Reg)))) := by
  unfold act
  rw [block_modifyBlock_self (by simpa [pushReg] using hb),
    block_modifyBlock_self (by simpa [pushReg] using hb)]
  show ((f.modifyBlock b _).block b |>.bind w _ |>.add _) = _
  rw [block_modifyBlock_self hb]

theorem block_act_ne {c : BlockId} (hc : b ≠ c) : (f.act b a v w).block c = f.block c := by
  unfold act
  rw [block_modifyBlock_ne hc, block_modifyBlock_ne hc]
  exact block_modifyBlock_ne hc _

theorem block_leaveOn_self (hb : b < f.blocks.size) : (f.leaveOn b e v).block b =
    ((f.block b).read v).2.add (.exit (e.mapRead fun _ => ((f.block b).read v).1)) := by
  unfold leaveOn
  rw [block_modifyBlock_self (by simpa using hb), block_modifyBlock_self hb]

theorem block_leaveOn_ne {c : BlockId} (hc : b ≠ c) : (f.leaveOn b e v).block c = f.block c := by
  unfold leaveOn
  rw [block_modifyBlock_ne hc, block_modifyBlock_ne hc]

theorem Growing.act (h : f.Growing) (h0 : b ≠ ProcCompiler.entry) (hb : b < f.blocks.size)
    (hv : 0 ≤ v) (hr : a.read? = some v) : (f.act b a v w).Growing := by
  have h₁ : (f.modifyBlock b fun _ => ((f.block b).read v).2).Growing :=
    h.modifyBlock h0 ((h.sound b).read hv)
  have h₂ : (((f.modifyBlock b fun _ => ((f.block b).read v).2).pushReg { var := w }).modifyBlock b
      (·.bind w f.regs.size)).Growing := (h₁.pushReg w).modifyBlock h0 ((h₁.sound b).bind w _)
  refine h₂.modifyBlock h0 ((h₂.sound b).add fun o ho => ?_)
  rw [block_modifyBlock_self (by simpa [Routine.pushReg] using hb)]
  have hblock : ((f.modifyBlock b fun _ => ((f.block b).read v).2).pushReg { var := w }).block b =
      ((f.block b).read v).2 := block_modifyBlock_self hb _
  rw [hblock]
  have ho' : o = ((f.block b).read v).1 := by
    cases a <;> simp_all [Instr.read?, Action.read?, Action.mapRead, Action.mapWrite]
  rw [ho']
  exact Block.fits_read _ v

theorem Growing.leaveOn (h : f.Growing) (h0 : b ≠ ProcCompiler.entry) (hb : b < f.blocks.size)
    (hv : 0 ≤ v) (hr : e.read? = some v) : (f.leaveOn b e v).Growing := by
  have h₁ : (f.modifyBlock b fun _ => ((f.block b).read v).2).Growing :=
    h.modifyBlock h0 ((h.sound b).read hv)
  refine h₁.modifyBlock h0 ((h₁.sound b).add fun o ho => ?_)
  rw [block_modifyBlock_self hb]
  have ho' : o = ((f.block b).read v).1 := by
    cases e <;> simp_all [Instr.read?, Exit.read?, Exit.mapRead]
  rw [ho']
  exact Block.fits_read _ v

end

end Routine

namespace Build

variable {f : Routine} {b : BlockId} (hb : b < f.blocks.size) (hx : (f.block b).exit = none)

include hb hx

theorem add_open (x : Instr Reg Operand Label) :
    add (b : Label) x f = .ok () (f.modifyBlock b (·.add x)) := by
  have hc : ¬ (f.block b).isComplete := by simp [Block.isComplete, hx]
  rw [add_eq, Routine.find?_natCast hb]
  exact if_neg hc

theorem write_open (v : Var) : write (b : Label) v f =
    .ok (f.regs.size : Reg) ((f.pushReg { var := v }).modifyBlock b (·.bind v f.regs.size)) := by
  have hc : ¬ (f.block b).isComplete := by simp [Block.isComplete, hx]
  rw [write_eq, Routine.find?_natCast hb]
  exact if_neg hc

omit hx in
theorem read_open (v : Var) : read (b : Label) v f =
    .ok ((f.block b).read v).1 (f.modifyBlock b fun _ => ((f.block b).read v).2) := by
  rw [read_eq, Routine.find?_natCast hb]

/-- Reading, writing and adding, as one change. -/
theorem act_open (a : Action Var Var) (v w : Var) :
    (do
      let arg ← read (b : Label) v
      let out ← write (b : Label) w
      add (b : Label) (.action ((a.mapRead fun _ => arg).mapWrite fun _ => out))
      return (out, arg) : Build (Reg × Operand)) f =
      .ok ((f.regs.size : Reg), ((f.block b).read v).1) (f.act b a v w) := by
  have hb₁ : b < (f.modifyBlock b fun _ => ((f.block b).read v).2).blocks.size := by simpa using hb
  have hx₁ : ((f.modifyBlock b fun _ => ((f.block b).read v).2).block b).exit = none := by
    rw [Routine.block_modifyBlock_self hb, Block.exit_read]; exact hx
  have hb₂ : b <
      (((f.modifyBlock b fun _ => ((f.block b).read v).2).pushReg { var := w }).modifyBlock b
      (·.bind w f.regs.size)).blocks.size := by simpa [Routine.pushReg] using hb
  have hx₂ : ((((f.modifyBlock b fun _ => ((f.block b).read v).2).pushReg
      { var := w }).modifyBlock b (·.bind w f.regs.size)).block b).exit = none := by
    rw [Routine.block_modifyBlock_self (by simpa [Routine.pushReg] using hb)]
    exact hx₁
  simp only [bind, EStateM.bind, read_open hb, write_open hb₁ hx₁]
  rw [show (f.modifyBlock b fun _ => ((f.block b).read v).2).regs.size = f.regs.size from
    rfl, add_open hb₂ hx₂]
  rfl

theorem move_open (dst src : Var) : ∃ x, move (b : Label) dst src f =
    .ok x (f.act b (.move dst src) src dst) := ⟨_, act_open hb hx (.move dst src) src dst⟩

theorem call_open (fn : FuncId) (v : Var) : ∃ x, call (b : Label) fn v f =
    .ok x (f.act b (.call fn v v) v v) := ⟨_, act_open hb hx (.call fn v v) v v⟩

theorem branch_open (cond : Var) (yes no : Label) : ∃ x, branch (b : Label) cond yes no f =
    .ok x (f.leaveOn b (.branch cond yes no) cond) := by
  have hb₁ : b < (f.modifyBlock b fun _ => ((f.block b).read cond).2).blocks.size := by
    simpa using hb
  have hx₁ : ((f.modifyBlock b fun _ => ((f.block b).read cond).2).block b).exit = none := by
    rw [Routine.block_modifyBlock_self hb, Block.exit_read]; exact hx
  refine ⟨((f.block b).read cond).1, ?_⟩
  simp only [branch, bind, EStateM.bind, read_open hb, add_open hb₁ hx₁]
  rfl

end Build

namespace Draft

/-- The draft with a variable of that name. -/
def addVar (d : Draft) (name : String) : Draft :=
  if name ∈ d.routine.vars.toList then d
  else { d with routine := { d.routine with vars := d.routine.vars.push name } }

/-- The variable of a name. -/
def varAt (d : Draft) (name : String) : Var := (d.routine.vars.toList.idxOf name : Nat)

/-- The block of a label. -/
def blockAt? (d : Draft) (name : String) : Option BlockId :=
  (d.labels.find? (·.name = name)).map LabelEntry.block

/-- The draft with a block for the label. -/
def addLabel (d : Draft) (id : Ident) : Draft :=
  if (d.blockAt? id.name).isSome then d
  else { d with
    routine := d.routine.pushBlock {}
    labels := d.labels ++ [{
      name := id.name, block := d.routine.blocks.size, firstUse := id.span.pos
      defined := false }] }

/-- The state of drafting between statements. The blocks were built from the listings `sk`. -/
structure Inv (d : Draft) (sk : BlockId → Listing Var) : Prop where
  growing : d.routine.Growing
  body : 2 ≤ d.routine.blocks.size
  vars : d.routine.vars.toList.Nodup
  renders : ∀ b, Block.Renders d.routine.Owns (d.routine.block b) (sk b)
  fresh : ∀ b, d.routine.blocks.size ≤ b → sk b = {}
  names : (d.labels.map LabelEntry.name).Nodup
  places : (d.labels.map LabelEntry.block).Nodup
  inside : ∀ e ∈ d.labels, 1 < e.block ∧ e.block < d.routine.blocks.size
  waiting : ∀ e ∈ d.labels, e.defined = false → sk e.block = {}
  current : ∀ b, d.current = some b → b ≠ entry ∧ b < d.routine.blocks.size ∧ (sk b).exit = none ∧
    ∀ e ∈ d.labels, e.block = b → e.defined = true
  complete : ∀ b < d.routine.blocks.size, b ≠ entry → d.current ≠ some b →
    (∀ e ∈ d.labels, e.block = b → e.defined = true) → (sk b).exit.isSome
  target : ∀ b e, (sk b).exit = some e → ∀ l ∈ e.labels,
    ∃ t : BlockId, l = t ∧ t ≠ entry ∧ t < d.routine.blocks.size

variable {d : Draft} {sk : BlockId → Listing Var}

/-! ## Names and labels -/

theorem varOf_eq (d : Draft) (name : String) :
    Drafting.varOf name d = .ok ((d.addVar name).varAt name, d.addVar name) := by
  unfold Drafting.varOf addVar varAt
  simp only [bind, StateT.bind, get, getThe, MonadStateOf.get, StateT.get, pure, Except.pure,
    Except.bind]
  by_cases hm : name ∈ d.routine.vars.toList
  · rw [idxOf?_of_mem hm, if_pos hm]
    rfl
  · rw [List.idxOf?_eq_none_iff.mpr hm, if_neg hm]
    simp only [Array.toList_push, List.idxOf_append_of_notMem hm, List.idxOf_cons_self,
      Nat.add_zero]
    rfl

theorem blockOf_eq (d : Draft) (id : Ident) :
    ∃ b, (d.addLabel id).blockAt? id.name = some b ∧
    Drafting.blockOf id d = .ok (b, d.addLabel id) := by
  unfold Drafting.blockOf addLabel blockAt?
  simp only [bind, StateT.bind, get, getThe, MonadStateOf.get, StateT.get, pure, Except.pure,
    Except.bind]
  cases hf : d.labels.find? (·.name = id.name) with
  | some e => exact ⟨e.block, by simp [hf], by simp; rfl⟩
  | none => exact ⟨d.routine.blocks.size, by simp [hf], by simp; rfl⟩

theorem nodup_vars_addVar (h : d.routine.vars.toList.Nodup) (name : String) :
    (d.addVar name).routine.vars.toList.Nodup := by
  unfold addVar
  split
  · exact h
  · rename_i hm
    simp only [Array.toList_push]
    exact List.nodup_append.mpr ⟨h, List.nodup_singleton name, fun x hx y hy => by
      rw [List.mem_singleton] at hy; rintro rfl; exact hm (hy ▸ hx)⟩

theorem Inv.addVar (h : d.Inv sk) (name : String) : (d.addVar name).Inv sk := by
  have hvars := nodup_vars_addVar h.vars name
  revert hvars
  unfold Draft.addVar
  split
  · exact fun _ => h
  · exact fun hvars =>
      ⟨h.growing.pushVar name, h.body, hvars, h.renders, h.fresh, h.names, h.places, h.inside,
        h.waiting, h.current, h.complete, h.target⟩

theorem blockAt?_eq_none {name : String} :
    d.blockAt? name = none ↔ ∀ e ∈ d.labels, e.name ≠ name := by
  simp [blockAt?]

theorem mem_of_blockAt? {name : String} {b : BlockId} (hb : d.blockAt? name = some b) :
    ∃ e ∈ d.labels, e.name = name ∧ e.block = b := by
  obtain ⟨e, he, rfl⟩ := Option.map_eq_some_iff.mp hb
  exact ⟨e, List.mem_of_find?_eq_some he, by simpa using List.find?_some he, rfl⟩

theorem Inv.addLabel (h : d.Inv sk) (id : Ident) : (d.addLabel id).Inv sk := by
  unfold Draft.addLabel
  split
  · exact h
  · rename_i hnew
    have hnew : d.blockAt? id.name = none := by simpa using hnew
    have hlt : ∀ {b}, b < d.routine.blocks.size → b < (d.routine.pushBlock {}).blocks.size :=
      fun hb => by
      rw [Routine.size_pushBlock]; exact Nat.lt_succ_of_lt hb
    refine ⟨h.growing.pushBlock, ?_, h.vars, fun b => ?_, fun b hb => ?_, ?_, ?_, fun e he => ?_,
      fun e he hd => ?_, fun b hb => ?_, fun b hb h0 hc hdef => ?_, fun b e he l hl => ?_⟩
    · rw [Routine.size_pushBlock]; exact Nat.le_succ_of_le h.body
    · by_cases hb : b = d.routine.blocks.size
      · subst hb
        rw [Routine.block_pushBlock_self, h.fresh _ (Nat.le_refl _)]
        exact Block.renders_empty _
      · rw [Routine.block_pushBlock_ne hb]; exact h.renders b
    · rw [Routine.size_pushBlock] at hb
      exact h.fresh b (Nat.le_of_succ_le hb)
    · rw [List.map_append, List.nodup_append]
      refine ⟨h.names, List.nodup_singleton _, fun x hx y hy => ?_⟩
      obtain ⟨e, he, rfl⟩ := List.mem_map.mp hx
      rw [List.map_singleton, List.mem_singleton] at hy
      subst hy
      exact blockAt?_eq_none.mp hnew e he
    · rw [List.map_append, List.nodup_append]
      refine ⟨h.places, List.nodup_singleton _, fun x hx y hy => ?_⟩
      obtain ⟨e, he, rfl⟩ := List.mem_map.mp hx
      rw [List.map_singleton, List.mem_singleton] at hy
      subst hy
      exact Nat.ne_of_lt (h.inside e he).2
    · rcases List.mem_append.mp he with he | he
      · exact ⟨(h.inside e he).1, hlt (h.inside e he).2⟩
      · rw [List.mem_singleton.mp he]
        exact ⟨h.body, by rw [Routine.size_pushBlock]; exact Nat.lt_succ_self _⟩
    · rcases List.mem_append.mp he with he | he
      · exact h.waiting e he hd
      · rw [List.mem_singleton.mp he]
        exact h.fresh _ (Nat.le_refl _)
    · obtain ⟨h0, hb, hx, hd⟩ := h.current b hb
      refine ⟨h0, hlt hb, hx, fun e he heb => ?_⟩
      rcases List.mem_append.mp he with he | he
      · exact hd e he heb
      · rw [List.mem_singleton.mp he] at heb
        exact absurd heb.symm (Nat.ne_of_lt hb)
    · rw [Routine.size_pushBlock] at hb
      rcases Nat.lt_succ_iff_lt_or_eq.mp hb with hb | rfl
      · exact h.complete b hb h0 hc fun e he => hdef e (by simp [he])
      · have := hdef _ (List.mem_append_right _ (List.mem_singleton.mpr rfl)) rfl
        cases this
    · obtain ⟨t, rfl, h0, ht⟩ := h.target b e he l hl
      exact ⟨t, rfl, h0, hlt ht⟩

/-! ## Blocks -/

/-- The current block changes; it stays current as long as it is open. -/
theorem Inv.edit (h : d.Inv sk) {b : BlockId} (hb : d.current = some b) {f : Routine}
    {s : Listing Var} {next : Option BlockId} (hg : f.Growing) (hv : f.vars = d.routine.vars)
    (hsize : f.blocks.size = d.routine.blocks.size)
    (hr : ∀ c, Block.Renders f.Owns (f.block c) (Function.update sk b s c))
    (htarget : ∀ e, s.exit = some e → ∀ l ∈ e.labels,
      ∃ t : BlockId, l = t ∧ t ≠ entry ∧ t < d.routine.blocks.size)
    (hnext : s.exit = none ∧ next = some b ∨ s.exit.isSome ∧ next = none) :
    Inv { d with routine := f, current := next } (Function.update sk b s) := by
  obtain ⟨h0, hlt, hx, hdef⟩ := h.current b hb
  refine ⟨hg, by rw [hsize]; exact h.body, by rw [hv]; exact h.vars, hr, fun c hc => ?_, h.names,
    h.places, by rw [hsize]; exact h.inside, fun e he hd => ?_, fun c hc => ?_,
    fun c hc hc0 hcur hcdef => ?_, fun c e he l hl => ?_⟩
  · rw [hsize] at hc
    rw [Function.update_of_ne (Nat.ne_of_gt (Nat.lt_of_lt_of_le hlt hc))]
    exact h.fresh c hc
  · have hne : e.block ≠ b := fun heq => by rw [hdef e he heq] at hd; cases hd
    rw [Function.update_of_ne hne]
    exact h.waiting e he hd
  · rcases hnext with ⟨hs, rfl⟩ | ⟨-, rfl⟩
    · obtain rfl : b = c := Option.some.inj hc
      exact ⟨h0, by rw [hsize]; exact hlt, by rw [Function.update_self]; exact hs, hdef⟩
    · cases hc
  · rw [hsize] at hc
    by_cases hcb : c = b
    · subst hcb
      rcases hnext with ⟨-, rfl⟩ | ⟨hs, -⟩
      · exact absurd rfl hcur
      · rw [Function.update_self]; exact hs
    · rw [Function.update_of_ne hcb]
      refine h.complete c hc hc0 ?_ hcdef
      rw [hb]
      exact fun heq => hcb (Option.some.inj heq).symm
  · rw [hsize]
    by_cases hcb : c = b
    · subst hcb; rw [Function.update_self] at he; exact htarget e he l hl
    · rw [Function.update_of_ne hcb] at he; exact h.target c e he l hl

/-- An action in the current block. -/
theorem Inv.act (h : d.Inv sk) {b : BlockId} (hb : d.current = some b) {a : Action Var Var}
    {v w : Var} (hv : a.read? = some v) (hw : a.write? = some w) (hv0 : 0 ≤ v) :
    Inv { d with routine := d.routine.act b a v w }
      (Function.update sk b { sk b with body := (sk b).body ++ [a] }) := by
  obtain ⟨h0, hlt, hx, -⟩ := h.current b hb
  have hown : ∀ r x, d.routine.Owns r x → (d.routine.act b a v w).Owns r x := fun r x =>
    Routine.owns_pushReg { var := w }
  have key := h.edit hb (f := d.routine.act b a v w) (s := { sk b with body := (sk b).body ++ [a] })
    (h.growing.act h0 hlt hv0 hv) rfl Routine.size_act (fun c => ?_)
    (fun e he => by rw [hx] at he; cases he) (.inl ⟨hx, rfl⟩)
  · rwa [← hb] at key
  · by_cases hc : b = c
    · subst hc
      rw [Function.update_self, Routine.block_act_self hlt]
      exact ((h.renders b).mono hown).act (h.growing.sound b) hx hv hw
        (Routine.owns_new _ { var := w })
    · rw [Function.update_of_ne (Ne.symm hc), Routine.block_act_ne hc]
      exact (h.renders c).mono hown

/-- The current block ends in an exit that depends on a variable. -/
theorem Inv.leaveOn (h : d.Inv sk) {b : BlockId} (hb : d.current = some b) {e : Exit Var Label}
    {v : Var} (hv : e.read? = some v) (hv0 : 0 ≤ v)
    (ht : ∀ l ∈ e.labels, ∃ t : BlockId, l = t ∧ t ≠ entry ∧ t < d.routine.blocks.size) :
    Inv { d with routine := d.routine.leaveOn b e v, current := none }
      (Function.update sk b { sk b with exit := some e }) := by
  obtain ⟨h0, hlt, hx, -⟩ := h.current b hb
  refine h.edit hb (h.growing.leaveOn h0 hlt hv0 hv) rfl Routine.size_leaveOn (fun c => ?_)
    (fun e' he => by cases he; exact ht) (.inr ⟨rfl, rfl⟩)
  by_cases hc : b = c
  · subst hc
    rw [Function.update_self, Routine.block_leaveOn_self hlt]
    exact (h.renders b).leave_on (h.growing.sound b) hx hv
  · rw [Function.update_of_ne (Ne.symm hc), Routine.block_leaveOn_ne hc]
    exact h.renders c

/-- The current block ends in an exit that depends on nothing. -/
theorem Inv.leave (h : d.Inv sk) {b : BlockId} (hb : d.current = some b) {e : Exit Var Label}
    (hv : e.read? = none) (o : Operand)
    (ht : ∀ l ∈ e.labels, ∃ t : BlockId, l = t ∧ t ≠ entry ∧ t < d.routine.blocks.size) :
    Inv { d with
        routine := d.routine.modifyBlock b (·.add (.exit (e.mapRead fun _ => o)))
        current := none }
      (Function.update sk b { sk b with exit := some e }) := by
  obtain ⟨h0, hlt, hx, -⟩ := h.current b hb
  have hread : (e.mapRead fun _ => o).read? = none := by rw [Exit.read?_mapRead, hv]; rfl
  have hg : (d.routine.modifyBlock b (·.add (.exit (e.mapRead fun _ => o)))).Growing :=
    h.growing.modifyBlock h0 ((h.growing.sound b).add fun x hx => by
      rw [Instr.read?, hread] at hx; cases hx)
  refine h.edit hb hg rfl (Routine.size_modifyBlock _ _ _) (fun c => ?_)
    (fun e' he => by cases he; exact ht) (.inr ⟨rfl, rfl⟩)
  by_cases hc : b = c
  · subst hc
    rw [Function.update_self, Routine.block_modifyBlock_self hlt]
    exact (h.renders b).leave hx hv o
  · rw [Function.update_of_ne (Ne.symm hc), Routine.block_modifyBlock_ne hc]
    exact h.renders c

/-- The labels with one more of them defined. -/
def defineLabel (labels : List LabelEntry) (name : String) : List LabelEntry :=
  labels.map fun e => if e.name = name then { e with defined := true } else e

theorem map_defineLabel {β : Type} {labels : List LabelEntry} {name : String} {g : LabelEntry → β}
    (hg : ∀ e : LabelEntry, g { e with defined := true } = g e) :
    (defineLabel labels name).map g = labels.map g := by
  simp only [defineLabel, List.map_map]
  apply List.map_congr_left
  intro e _
  simp only [Function.comp]
  split
  · exact hg e
  · rfl

/-- With no block current, a label that was not defined becomes the current block. -/
theorem Inv.enter (h : d.Inv sk) (hc : d.current = none) {name : String} {b : BlockId}
    (hb : d.blockAt? name = some b) (hd : ∀ e ∈ d.labels, e.name = name → e.defined = false) :
    Inv { d with labels := defineLabel d.labels name, current := some b } sk := by
  have hmem : ∀ e ∈ defineLabel d.labels name, ∃ e' ∈ d.labels, e.block = e'.block ∧
      (e.defined = e'.defined ∧ e'.name ≠ name ∨ e.defined = true ∧ e'.name = name) := by
    intro e he
    obtain ⟨e', he', rfl⟩ := List.mem_map.mp he
    split
    · exact ⟨e', he', rfl, .inr ⟨rfl, ‹_›⟩⟩
    · exact ⟨e', he', rfl, .inl ⟨rfl, ‹_›⟩⟩
  obtain ⟨x, hx, hxn, rfl⟩ := mem_of_blockAt? hb
  refine ⟨h.growing, h.body, h.vars, h.renders, h.fresh, ?_, ?_, fun e he => ?_, fun e he hed => ?_,
    fun c hcur => ?_, fun c hlt h0 hcur hdef => ?_, h.target⟩
  · rw [map_defineLabel fun _ => rfl]; exact h.names
  · rw [map_defineLabel fun _ => rfl]; exact h.places
  · obtain ⟨e', he', heb, -⟩ := hmem e he
    rw [heb]; exact h.inside e' he'
  · obtain ⟨e', he', heb, hcase⟩ := hmem e he
    rw [heb]
    rcases hcase with ⟨hd', -⟩ | ⟨hd', -⟩
    · exact h.waiting e' he' (hd' ▸ hed)
    · rw [hd'] at hed; cases hed
  · obtain rfl := Option.some.inj hcur
    refine ⟨Nat.ne_of_gt (Nat.lt_of_succ_lt (h.inside x hx).1), (h.inside x hx).2, ?_,
      fun e he heb => ?_⟩
    · rw [h.waiting x hx (hd x hx hxn)]
    · obtain ⟨e', he', heb', hcase⟩ := hmem e he
      have hex : e' = x := List.inj_on_of_nodup_map h.places he' hx (heb'.symm.trans heb)
      rcases hcase with ⟨-, hne⟩ | ⟨hd', -⟩
      · exact absurd (hex ▸ hxn) hne
      · exact hd'
  · refine h.complete c hlt h0 (by rw [hc]; simp) fun e he heb => ?_
    by_cases hen : e.name = name
    · have hex : e = x := List.inj_on_of_nodup_map h.names he hx (hen.trans hxn.symm)
      exact absurd (congrArg some (hex ▸ heb)) hcur
    · exact hdef e (List.mem_map.mpr ⟨e, he, if_neg hen⟩) heb

/-! ## Statements -/

theorem build_ok {α : Type} {x : Build α} {a : α} {f : Routine} (h : x d.routine = .ok a f) :
    Drafting.build x d = .ok (a, { d with routine := f }) := by
  unfold Drafting.build
  rw [h]

theorem discard_ok {α : Type} {x : Drafting α} {a : α} {d' : Draft} (h : x d = .ok (a, d')) :
    (discard x : Drafting Unit) d = .ok ((), d') := by
  simp [discard, Functor.discard, Functor.mapConst, StateT.map, h, bind, Except.bind, pure,
    Except.pure]

theorem current_addVar (d : Draft) (name : String) : (d.addVar name).current = d.current := by
  unfold addVar; split <;> rfl

theorem labels_addVar (d : Draft) (name : String) : (d.addVar name).labels = d.labels := by
  unfold addVar; split <;> rfl

theorem current_addLabel (d : Draft) (id : Ident) : (d.addLabel id).current = d.current := by
  unfold addLabel; split <;> rfl

theorem vars_addLabel (d : Draft) (id : Ident) : (d.addLabel id).routine.vars = d.routine.vars := by
  unfold addLabel; split <;> rfl

theorem mem_vars_addVar {d : Draft} {name x : String} :
    x ∈ (d.addVar name).routine.vars.toList ↔ x ∈ d.routine.vars.toList ∨ x = name := by
  unfold addVar
  split
  · rename_i hm
    constructor
    · exact .inl
    · rintro (hx | rfl)
      · exact hx
      · exact hm
  · simp

/-- A name keeps its variable. -/
theorem varAt_addVar {d : Draft} {x : String} (hx : x ∈ d.routine.vars.toList) (name : String) :
    (d.addVar name).varAt x = d.varAt x := by
  unfold addVar varAt
  split
  · rfl
  · simp only [Array.toList_push, List.idxOf_append_of_mem hx]

/-- What a statement does to a draft and its listings. -/
inductive Drafted (table : ForeignTable) (d : Draft) (sk : BlockId → Listing Var) :
    Stmt → Draft → (BlockId → Listing Var) → Prop where
  | move {b : BlockId} {dst src : Ident} {d' : Draft} (hb : d.current = some b)
      (hb' : d'.current = some b)
      (hl : d'.labels = d.labels)
      (hv : d'.routine.vars = ((d.addVar src.name).addVar dst.name).routine.vars) :
      Drafted table d sk (.move dst src) d' (Function.update sk b
        { sk b with body := (sk b).body ++ [.move (d'.varAt dst.name) (d'.varAt src.name)] })
  | call {b : BlockId} {fn var : Ident} {i : Nat} {d' : Draft} (hf : table.lookup? fn.name = some i)
      (hb : d.current = some b) (hb' : d'.current = some b) (hl : d'.labels = d.labels)
      (hv : d'.routine.vars = (d.addVar var.name).routine.vars) :
      Drafted table d sk (.call fn var) d' (Function.update sk b
        { sk b with body := (sk b).body ++ [.call i (d'.varAt var.name) (d'.varAt var.name)] })
  | goto {b t : BlockId} {target : Ident} {d' : Draft} (hb : d.current = some b)
      (hb' : d'.current = none)
      (hl : d'.labels = (d.addLabel target).labels) (ht : d'.blockAt? target.name = some t)
      (hv : d'.routine.vars = d.routine.vars) :
      Drafted table d sk (.goto target) d'
        (Function.update sk b { sk b with exit := some (.jump t) })
  | branch {b t u : BlockId} {cond yes no : Ident} {d' : Draft} (hb : d.current = some b)
      (hb' : d'.current = none)
        (hl : d'.labels = (((d.addVar cond.name).addLabel yes).addLabel no).labels)
      (ht : d'.blockAt? yes.name = some t) (hu : d'.blockAt? no.name = some u)
      (hv : d'.routine.vars = (d.addVar cond.name).routine.vars) :
      Drafted table d sk (.branch cond yes no) d' (Function.update sk b
        { sk b with exit := some (.branch (d'.varAt cond.name) t u) })
  | ret {b : BlockId} {span : Span} {d' : Draft} (hb : d.current = some b) (hb' : d'.current = none)
      (hl : d'.labels = d.labels) (hv : d'.routine.vars = d.routine.vars) :
      Drafted table d sk (.ret span) d' (Function.update sk b { sk b with exit := some .ret })
  | label {t : BlockId} {id : Ident} {d' : Draft} (hb' : d'.current = some t)
      (hl : d'.labels = defineLabel (d.addLabel id).labels id.name)
        (ht : d'.blockAt? id.name = some t)
      (hnew : sk t = {}) (hne : d.current ≠ some t) (hv : d'.routine.vars = d.routine.vars) :
      Drafted table d sk (.label id) d' (match d.current with
        | some b => Function.update sk b { sk b with exit := some (.jump t) }
        | none => sk)

theorem varAt_nonneg (d : Draft) (name : String) : 0 ≤ d.varAt name := Int.natCast_nonneg _

section

variable (table : ForeignTable) {b : BlockId}

theorem Inv.move (h : d.Inv sk) (hb : d.current = some b) (dst src : Ident) :
    ∃ d' sk', Drafting.code table b (.move dst src) d = .ok ((), d') ∧ d'.Inv sk' ∧
      Drafted table d sk (.move dst src) d' sk' := by
  have hsrc : ((d.addVar src.name).addVar dst.name).varAt src.name =
      (d.addVar src.name).varAt src.name :=
    varAt_addVar (mem_vars_addVar.mpr (.inr rfl)) _
  have hcode : ∀ {x}, Drafting.build (Build.move (b : Label)
        (((d.addVar src.name).addVar dst.name).varAt dst.name)
        (((d.addVar src.name).addVar dst.name).varAt src.name))
        ((d.addVar src.name).addVar dst.name) = .ok x →
      Drafting.code table b (.move dst src) d = .ok ((), x.2) := by
    intro x hx
    simp only [Drafting.code, bind, StateT.bind, varOf_eq, Except.bind]
    rw [← hsrc]
    exact discard_ok hx
  have hl : ((d.addVar src.name).addVar dst.name).labels = d.labels := by simp only [labels_addVar]
  have hb₂ : ((d.addVar src.name).addVar dst.name).current = some b := by
    rw [current_addVar, current_addVar]; exact hb
  have h₂ := (h.addVar src.name).addVar dst.name
  generalize hd₂ : (d.addVar src.name).addVar dst.name = d₂ at hcode hl hb₂ h₂
  obtain ⟨-, hlt, hx, -⟩ := h₂.current b hb₂
  obtain ⟨x, hmove⟩ :=
    Build.move_open hlt ((h₂.renders b).exit_eq_none hx) (d₂.varAt dst.name) (d₂.varAt src.name)
  have hi := h₂.act hb₂ (a := .move (d₂.varAt dst.name) (d₂.varAt src.name)) rfl rfl
      (varAt_nonneg _ _)
  exact ⟨_, _, hcode (build_ok hmove), hi, .move hb hb₂ hl (by rw [hd₂]; rfl)⟩

theorem Inv.call (h : d.Inv sk) (hb : d.current = some b) {fn : Ident} (var : Ident) {i : Nat}
    (hf : table.lookup? fn.name = some i) :
    ∃ d' sk', Drafting.code table b (.call fn var) d = .ok ((), d') ∧ d'.Inv sk' ∧
      Drafted table d sk (.call fn var) d' sk' := by
  have hcode : ∀ {x}, Drafting.build (Build.call (b : Label) i ((d.addVar var.name).varAt var.name))
      (d.addVar var.name) = .ok x → Drafting.code table b (.call fn var) d = .ok ((), x.2) := by
    intro x hx
    simp only [Drafting.code, hf, bind, StateT.bind, varOf_eq, Except.bind]
    exact discard_ok hx
  have hl := labels_addVar d var.name
  have hb₂ : (d.addVar var.name).current = some b := by rw [current_addVar]; exact hb
  have h₂ := h.addVar var.name
  generalize hd₂ : d.addVar var.name = d₂ at hcode hl hb₂ h₂
  obtain ⟨-, hlt, hx, -⟩ := h₂.current b hb₂
  obtain ⟨x, hcall⟩ := Build.call_open hlt ((h₂.renders b).exit_eq_none hx) i (d₂.varAt var.name)
  have hi := h₂.act hb₂ (a := .call i (d₂.varAt var.name) (d₂.varAt var.name)) rfl rfl
      (varAt_nonneg _ _)
  exact ⟨_, _, hcode (build_ok hcall), hi, .call hf hb hb₂ hl (by rw [hd₂]; rfl)⟩

/-- The block of a label is one of the body. -/
theorem Inv.blockAt_lt (h : d.Inv sk) {name : String} {t : BlockId}
    (ht : d.blockAt? name = some t) :
    t ≠ entry ∧ t < d.routine.blocks.size := by
  obtain ⟨e, he, -, rfl⟩ := mem_of_blockAt? ht
  exact ⟨Nat.ne_of_gt (Nat.lt_of_succ_lt (h.inside e he).1), (h.inside e he).2⟩

theorem Inv.ret (h : d.Inv sk) (hb : d.current = some b) (span : Span) :
    ∃ d' sk', Drafting.code table b (.ret span) d = .ok ((), d') ∧ d'.Inv sk' ∧
      Drafted table d sk (.ret span) d' sk' := by
  obtain ⟨-, hlt, hx, -⟩ := h.current b hb
  have hret := Build.add_open hlt ((h.renders b).exit_eq_none hx) (.exit .ret)
  have hi := h.leave hb (e := .ret) rfl (.reg 0) (fun l hl => by cases hl)
  refine ⟨_, _, ?_, hi, .ret hb rfl rfl rfl⟩
  simp only [Drafting.code, Build.ret, bind, StateT.bind, Except.bind, build_ok hret]
  rfl

theorem Inv.goto (h : d.Inv sk) (hb : d.current = some b) (target : Ident) :
    ∃ d' sk', Drafting.code table b (.goto target) d = .ok ((), d') ∧ d'.Inv sk' ∧
      Drafted table d sk (.goto target) d' sk' := by
  obtain ⟨t, ht, hblock⟩ := d.blockOf_eq target
  have h₂ := h.addLabel target
  have hb₂ : (d.addLabel target).current = some b := by rw [current_addLabel]; exact hb
  have hv := d.vars_addLabel target
  obtain ⟨-, hlt, hx, -⟩ := h₂.current b hb₂
  have hjump := Build.add_open hlt ((h₂.renders b).exit_eq_none hx) (.exit (.jump t))
  have hi := h₂.leave hb₂ (e := .jump t) rfl (.reg 0) (fun l hl => by
    rw [Exit.labels, List.mem_singleton] at hl
    exact ⟨t, hl, h₂.blockAt_lt ht⟩)
  refine ⟨_, _, ?_, hi, .goto hb rfl rfl ht hv⟩
  simp only [Drafting.code, Build.jump, bind, StateT.bind, Except.bind, hblock, build_ok hjump]
  rfl

/-- A label keeps its block. -/
theorem blockAt?_addLabel {name : String} {t : BlockId} (ht : d.blockAt? name = some t)
    (id : Ident) :
    (d.addLabel id).blockAt? name = some t := by
  unfold addLabel
  split
  · exact ht
  · obtain ⟨e, he, rfl⟩ := Option.map_eq_some_iff.mp ht
    simp [blockAt?, he]

theorem Inv.branch (h : d.Inv sk) (hb : d.current = some b) (cond yes no : Ident) :
    ∃ d' sk', Drafting.code table b (.branch cond yes no) d = .ok ((), d') ∧ d'.Inv sk' ∧
      Drafted table d sk (.branch cond yes no) d' sk' := by
  obtain ⟨t, ht, hyes⟩ := (d.addVar cond.name).blockOf_eq yes
  obtain ⟨u, hu, hno⟩ := ((d.addVar cond.name).addLabel yes).blockOf_eq no
  have hv : (((d.addVar cond.name).addLabel yes).addLabel no).routine.vars =
      (d.addVar cond.name).routine.vars := by
    rw [vars_addLabel, vars_addLabel]
  have hcond : (d.addVar cond.name).varAt cond.name =
      (((d.addVar cond.name).addLabel yes).addLabel no).varAt cond.name := by
    unfold varAt; rw [hv]
  have hcode : ∀ {x}, Drafting.build (Build.branch (b : Label)
        ((((d.addVar cond.name).addLabel yes).addLabel no).varAt cond.name) t u)
        (((d.addVar cond.name).addLabel yes).addLabel no) = .ok x →
      Drafting.code table b (.branch cond yes no) d = .ok ((), { x.2 with current := none }) := by
    intro x hx
    simp only [Drafting.code, bind, StateT.bind, varOf_eq, Except.bind, hyes, hno]
    rw [hcond, discard_ok hx]
    rfl
  have ht₂ := blockAt?_addLabel ht no
  have hb₂ : (((d.addVar cond.name).addLabel yes).addLabel no).current = some b := by
    rw [current_addLabel, current_addLabel, current_addVar]; exact hb
  have h₂ := ((h.addVar cond.name).addLabel yes).addLabel no
  generalize hd₂ : ((d.addVar cond.name).addLabel yes).addLabel no = d₂ at hcode ht₂ hu hb₂ h₂ hv
  obtain ⟨-, hlt, hx, -⟩ := h₂.current b hb₂
  obtain ⟨x, hbranch⟩ :=
    Build.branch_open hlt ((h₂.renders b).exit_eq_none hx) (d₂.varAt cond.name) t u
  have hi := h₂.leaveOn hb₂ (e := .branch (d₂.varAt cond.name) t u) rfl (varAt_nonneg _ _)
      (fun l hl => by
    rcases Exit.mem_labels.mp hl with rfl | rfl
    · exact ⟨t, rfl, h₂.blockAt_lt ht₂⟩
    · exact ⟨u, rfl, h₂.blockAt_lt hu⟩)
  exact ⟨_, _, hcode (build_ok hbranch), hi, .branch hb rfl (by rw [hd₂]) ht₂ hu hv⟩

theorem mem_labels_addLabel {d : Draft} {id : Ident} {e : LabelEntry}
    (he : e ∈ (d.addLabel id).labels) :
    e ∈ d.labels ∨ e.name = id.name ∧ e.defined = false := by
  unfold addLabel at he
  split at he
  · exact .inl he
  · rcases List.mem_append.mp he with he | he
    · exact .inl he
    · rw [List.mem_singleton.mp he]; exact .inr ⟨rfl, rfl⟩

theorem blockAt?_defineLabel (d : Draft) (name x : String) :
    Draft.blockAt? { d with labels := defineLabel d.labels name } x = d.blockAt? x := by
  unfold blockAt? defineLabel
  rw [List.find?_map, Option.map_map]
  congr 1
  · funext e
    simp only [Function.comp]
    split <;> rfl
  · congr 1
    funext e
    simp only [Function.comp]
    split <;> rfl

/-- A label that is not defined yet: its block is found, the current block goes on to it. -/
theorem label_eq {id : Ident} (hnew : ∀ e ∈ d.labels, e.name = id.name → e.defined = false)
    {t : BlockId} {d₂ : Draft} (hblock : Drafting.blockOf id d = .ok (t, d₂)) :
    Drafting.label id d = (do
      match d₂.current with
      | some last => Drafting.build (Build.jump last t)
      | none => pure ()
      modify fun d => { d with current := some t } : Drafting Unit)
        { d₂ with labels := defineLabel d₂.labels id.name } := by
  have hany : (d.labels.any fun e => e.name = id.name && e.defined) = false := by
    rw [List.any_eq_false]
    intro e he
    by_cases hn : e.name = id.name
    · simp [hn, hnew e he hn]
    · simp [hn]
  simp only [Drafting.label, bind, StateT.bind, Except.bind, get, getThe, MonadStateOf.get,
    StateT.get, pure, Except.pure, hany]
  simp only [Bool.false_eq_true, if_false]
  show (Drafting.blockOf id d).bind _ = _
  rw [hblock]
  rfl

theorem Inv.label (h : d.Inv sk) {id : Ident}
    (hnew : ∀ e ∈ d.labels, e.name = id.name → e.defined = false) :
    ∃ d' sk', Drafting.label id d = .ok ((), d') ∧ d'.Inv sk' ∧ Drafted table d sk
      (.label id) d' sk' := by
  obtain ⟨t, ht, hblock⟩ := d.blockOf_eq id
  have hlabel := label_eq hnew hblock
  have hnew₂ : ∀ e ∈ (d.addLabel id).labels, e.name = id.name → e.defined = false := fun e he hn =>
    (mem_labels_addLabel he).elim (hnew e · hn) (·.2)
  have h₂ := h.addLabel id
  obtain ⟨e, he, hn, rfl⟩ := mem_of_blockAt? ht
  have hfresh : sk e.block = {} := h₂.waiting e he (hnew₂ e he hn)
  have hv := d.vars_addLabel id
  have hcur := d.current_addLabel id
  have hne : d.current ≠ some e.block := by
    intro hc
    have hd := (h₂.current e.block (hcur.trans hc)).2.2.2 e he rfl
    rw [hnew₂ e he hn] at hd
    cases hd
  have ht' := ((d.addLabel id).blockAt?_defineLabel id.name id.name).trans ht
  cases hc : d.current with
  | none =>
    rw [hc] at hcur
    have hi := h₂.enter hcur ht hnew₂
    have hd : Drafted table d sk (.label id)
        { d.addLabel id with
          labels := defineLabel (d.addLabel id).labels id.name, current := some e.block }
        (match d.current with
          | some b => Function.update sk b { sk b with exit := some (.jump e.block) }
          | none => sk) := .label rfl rfl ht' hfresh hne hv
    rw [hc] at hd
    refine ⟨_, _, ?_, hi, hd⟩
    rw [hlabel, hcur]
    rfl
  | some b =>
    rw [hc] at hcur
    obtain ⟨-, hlt, hx, -⟩ := h₂.current b hcur
    have hjump := Build.add_open (f := (d.addLabel id).routine) hlt ((h₂.renders b).exit_eq_none hx)
      (.exit (.jump e.block))
    have hi := (h₂.leave hcur (e := .jump e.block) rfl (.reg 0) (fun l hl => by
      rw [Exit.labels, List.mem_singleton] at hl
      exact ⟨e.block, hl, h₂.blockAt_lt ht⟩)).enter rfl ht hnew₂
    have hd : Drafted table d sk (.label id)
        { routine := (d.addLabel id).routine.modifyBlock b (·.add (.exit (.jump e.block)))
          labels := defineLabel (d.addLabel id).labels id.name, current := some e.block }
        (match d.current with
          | some b => Function.update sk b { sk b with exit := some (.jump e.block) }
          | none => sk) := .label rfl rfl ht' hfresh hne hv
    rw [hc] at hd
    refine ⟨_, _, ?_, hi, hd⟩
    have hbuild : Drafting.build (Build.jump (b : Label) (e.block : Label))
        { routine := (d.addLabel id).routine, labels := defineLabel (d.addLabel id).labels id.name,
          current := some b } = .ok ((), _) := build_ok hjump
    rw [hlabel, hcur]
    simp only [bind, StateT.bind]
    rw [hbuild]
    rfl

end

end Draft

end ProcCompiler
