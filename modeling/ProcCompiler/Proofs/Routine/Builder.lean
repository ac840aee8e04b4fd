import ProcCompiler.Proofs.Lowering.Ready
import ProcCompiler.Routine.Builder
/-!
# What the builder keeps

The calls that grow a routine, as equations, and the shape that a routine keeps while it grows
(`Growing`): the entry stays untouched, every block waits for each variable once and reads only what
it waits for or knows. A grown routine that is closed is ready for lowering.

* `Build.read_eq`, `Build.write_eq`, `Build.add_eq`: the calls, which change one block or nothing.
* `Sound.read`, `Sound.bind`, `Sound.add`: what a call keeps of the block that it changes.
* `Growing.modifyBlock`: a call keeps the shape if it keeps that of the block.
* `Growing.ready`: a closed routine that was grown is ready.
-/
namespace ProcCompiler

/-! ## The calls -/

namespace Build

theorem get_eq (f : Routine) : (get : Build Routine) f = .ok f f := rfl

theorem locate_eq (b : Label) (f : Routine) : locate b f = match f.find? b with
    | some p => .ok p f
    | none => .error (.noSuchBlock b) f := by
  simp only [locate, bind, EStateM.bind, get_eq]
  cases f.find? b <;> rfl

theorem read_eq (b : Label) (v : Var) (f : Routine) : read b v f = match f.find? b with
    | some p => .ok ((f.block p).read v).1 (f.modifyBlock p fun _ => ((f.block p).read v).2)
    | none => .error (.noSuchBlock b) f := by
  simp only [read, bind, EStateM.bind, locate_eq]
  cases f.find? b <;> rfl

theorem locateForWrite_eq (b : Label) (v : Var) (f : Routine) : locateForWrite b v f =
    match f.find? b with
    | some p => if (f.block p).isComplete then .error (.writeToComplete (f.varName v) b) f
      else .ok p f
    | none => .error (.noSuchBlock b) f := by
  simp only [locateForWrite, bind, EStateM.bind, locate_eq]
  cases f.find? b with
  | none => rfl
  | some p =>
    simp only [get_eq]
    split <;> rfl

theorem writeReg_eq (b : Label) (v : Var) (r : Reg) (f : Routine) : writeReg b v r f =
    match f.find? b with
    | some p =>
      if (f.block p).isComplete then .error (.writeToComplete (f.varName v) b) f
      else .ok () (f.modifyBlock p (·.bind v r))
    | none => .error (.noSuchBlock b) f := by
  simp only [writeReg, bind, EStateM.bind, locateForWrite_eq]
  cases f.find? b with
  | none => rfl
  | some p =>
    by_cases hc : (f.block p).isComplete
    · simp only [if_pos hc]
    · simp only [if_neg hc]; rfl

theorem write_eq (b : Label) (v : Var) (f : Routine) : write b v f = match f.find? b with
    | some p =>
      if (f.block p).isComplete then .error (.writeToComplete (f.varName v) b) f
      else .ok (f.regs.size : Reg) ((f.pushReg { var := v }).modifyBlock p (·.bind v f.regs.size))
    | none => .error (.noSuchBlock b) f := by
  simp only [write, bind, EStateM.bind, locateForWrite_eq]
  cases f.find? b with
  | none => rfl
  | some p =>
    by_cases hc : (f.block p).isComplete
    · simp only [if_pos hc]
    · simp only [if_neg hc]; rfl

theorem add_eq (b : Label) (x : Instr Reg Operand Label) (f : Routine) : add b x f =
    match f.find? b with
    | some p =>
      if (f.block p).isComplete then .error (.addToComplete x.opName b) f
      else .ok () (f.modifyBlock p (·.add x))
    | none => .error (.noSuchBlock b) f := by
  simp only [add, bind, EStateM.bind, locate_eq]
  cases f.find? b with
  | none => rfl
  | some p =>
    simp only [get_eq]
    split <;> rfl

end Build

/-! ## Blocks -/

namespace Block

/-- The operand of an instruction is known, or waits as one of the parameters. -/
def Fits (b : Block) (o : Operand) : Prop := o.ref b.params ≠ .loose

/-- A block waits for each variable once, and reads only what it waits for or knows. -/
structure Sound (b : Block) : Prop where
  nodup : b.params.Nodup
  nonneg : ∀ v ∈ b.params, 0 ≤ v
  body : ∀ a ∈ b.body, ∀ o, a.read? = some o → b.Fits o
  exit : ∀ e, b.exit = some e → ∀ o, e.read? = some o → b.Fits o

theorem sound_empty : Sound {} where
  nodup := List.nodup_nil
  nonneg _ hv := by cases hv
  body _ ha := by cases ha
  exit _ he := by cases he

theorem Sound.tight {b : Block} (h : b.Sound) : b.Tight where
  body a ha := by
    obtain ⟨c, hc, rfl⟩ := List.mem_map.mp ha
    rw [Action.read?_mapRead]
    cases hr : c.read? with
    | none => simp
    | some o => exact fun hl => h.body c hc o hr (Option.some.inj hl)
  exit e he := by
    obtain ⟨c, hc, rfl⟩ := Option.map_eq_some_iff.mp he
    rw [Exit.read?_mapRead]
    cases hr : c.read? with
    | none => simp
    | some o => exact fun hl => h.exit c hc o hr (Option.some.inj hl)

/-- More parameters leave what fits as it is. -/
theorem Fits.ref_append {b : Block} {o : Operand} (h : b.Fits o) (vs : List Var) :
    o.ref (b.params ++ vs) = o.ref b.params := by
  cases o with
  | reg r => rfl
  | stray k => rfl
  | param i =>
    simp only [Fits, Operand.ref] at h ⊢
    cases hi : b.params[i]? with
    | none => rw [hi] at h; exact absurd rfl h
    | some v =>
      have hlt := (List.getElem?_eq_some_iff.mp hi).1
      rw [List.getElem?_append_left hlt, hi]

theorem Fits.append {b b' : Block} {vs : List Var} (hp : b'.params = b.params ++ vs) {o : Operand}
    (h : b.Fits o) : b'.Fits o := by
  unfold Fits
  rw [hp, h.ref_append]
  exact h

/-- Reading may add one parameter, and changes nothing else. -/
theorem read_cases (b : Block) (v : Var) :
    (b.read v).2 = b ∨ v ∉ b.params ∧ (b.read v).2 = { b with params := b.params ++ [v] } := by
  unfold read
  split
  · exact .inl rfl
  · split
    · exact .inl rfl
    · rename_i hi
      exact .inr ⟨List.idxOf?_eq_none_iff.mp hi, rfl⟩

/-- Where a variable stands at the end of the block. -/
def located (b : Block) (v : Var) : Ref :=
  match b.binding? v with
  | some r => .reg r
  | none => .var v

/-- A read names the place of the variable. -/
theorem ref_read (b : Block) (v : Var) : (b.read v).1.ref (b.read v).2.params = b.located v := by
  unfold read located
  cases b.binding? v with
  | some r => rfl
  | none =>
    simp only
    split
    · rename_i hi
      simp [Operand.ref, getElem?_of_idxOf? hi]
    · simp [Operand.ref]

/-- A read leaves the code as it is. -/
theorem Sound.bodyRefs_read {b : Block} (h : b.Sound) (v : Var) :
    (b.read v).2.bodyRefs = b.bodyRefs := by
  rcases b.read_cases v with hr | ⟨-, hr⟩ <;> rw [hr]
  apply List.map_congr_left
  intro a ha
  exact Action.mapRead_congr fun o ho => (h.body a ha o ho).ref_append [v]

theorem fits_read (b : Block) (v : Var) : (b.read v).2.Fits (b.read v).1 := by
  unfold Fits
  rw [ref_read, located]
  split <;> simp

theorem Sound.read {b : Block} (h : b.Sound) {v : Var} (hv : 0 ≤ v) : (b.read v).2.Sound := by
  rcases b.read_cases v with hr | ⟨hfresh, hr⟩ <;> rw [hr]
  · exact h
  · refine ⟨?_, ?_, fun a ha o ho => ?_, fun e he o ho => ?_⟩
    · exact List.nodup_append.mpr ⟨h.nodup, List.nodup_singleton v, fun x hx y hy => by
        rw [List.mem_singleton] at hy; rintro rfl; exact hfresh (hy ▸ hx)⟩
    · intro w hw
      rcases List.mem_append.mp hw with hw | hw
      · exact h.nonneg w hw
      · rw [List.mem_singleton.mp hw]; exact hv
    · exact (h.body a ha o ho).append rfl
    · exact (h.exit e he o ho).append rfl

theorem Sound.bind {b : Block} (h : b.Sound) (v : Var) (r : Reg) : (b.bind v r).Sound :=
  ⟨h.nodup, h.nonneg, h.body, h.exit⟩

theorem Sound.add {b : Block} (h : b.Sound) {x : Instr Reg Operand Label}
    (hx : ∀ o, x.read? = some o → b.Fits o) : (b.add x).Sound := by
  cases x with
  | action a =>
    refine ⟨h.nodup, h.nonneg, fun c hc => ?_, h.exit⟩
    rcases List.mem_append.mp hc with hc | hc
    · exact h.body c hc
    · rw [List.mem_singleton.mp hc]; exact hx
  | exit e =>
    refine ⟨h.nodup, h.nonneg, h.body, fun e' he => ?_⟩
    obtain rfl : e = e' := Option.some.inj he
    exact hx

end Block

/-! ## Routines -/

/-- A routine that grows: its entry is untouched, its blocks are sound, and it has no argument
registers. -/
structure Routine.Growing (f : Routine) : Prop where
  entry : f.block entry = {}
  nonempty : 0 < f.blocks.size
  route : f.route = 1
  sound : ∀ b, (f.block b).Sound
  plain : ∀ info ∈ f.regs.toList, info.slot = none

namespace Routine

theorem growing_new (name : String) : (new name).Growing where
  entry := rfl
  nonempty := by simp [new]
  route := rfl
  sound b := by
    cases b with
    | zero => exact Block.sound_empty
    | succ b => exact Block.sound_empty
  plain _ hi := by cases hi

namespace Growing

variable {f : Routine} (h : f.Growing)

include h

/-- A change to a block other than the entry. -/
theorem modifyBlock {p : BlockId} (hp : p ≠ ProcCompiler.entry) {change : Block → Block}
    (hs : (change (f.block p)).Sound) : (f.modifyBlock p change).Growing where
  entry := by rw [block_modifyBlock_ne hp]; exact h.entry
  nonempty := by simpa using h.nonempty
  route := h.route
  sound b := by
    by_cases hb : p = b
    · subst hb
      by_cases hlt : p < f.blocks.size
      · rw [block_modifyBlock_self hlt]; exact hs
      · rw [block_of_le (by simpa using Nat.le_of_not_lt hlt)]; exact Block.sound_empty
    · rw [block_modifyBlock_ne hb]; exact h.sound b
  plain := h.plain

theorem pushBlock : (f.pushBlock {}).Growing where
  entry := by
    rw [block_pushBlock_ne (b := ProcCompiler.entry) (Nat.ne_of_lt h.nonempty)]
    exact h.entry
  nonempty := by simp
  route := h.route
  sound b := by
    by_cases hb : b = f.blocks.size
    · subst hb; rw [block_pushBlock_self]; exact Block.sound_empty
    · rw [block_pushBlock_ne hb]; exact h.sound b
  plain := h.plain

theorem pushReg (v : Var) : (f.pushReg { var := v }).Growing where
  entry := h.entry
  nonempty := h.nonempty
  route := h.route
  sound := h.sound
  plain info hi := by
    rw [Routine.pushReg, Array.toList_push, List.mem_append] at hi
    rcases hi with hi | hi
    · exact h.plain info hi
    · rw [List.mem_singleton.mp hi]

theorem pushVar (name : String) : ({ f with vars := f.vars.push name } : Routine).Growing :=
  ⟨h.entry, h.nonempty, h.route, h.sound, h.plain⟩

/-- A closed routine that was grown is ready for lowering. -/
theorem ready (hc : f.Closed) : f.Ready where
  closed := hc
  bare := by rw [h.entry]; exact ⟨rfl, rfl, rfl⟩
  unbound v := by rw [h.entry]; rfl
  nodup b := (h.sound b).nodup
  nonneg b := (h.sound b).nonneg
  tight b := (h.sound b).tight
  plain := h.plain

end Growing

end Routine

end ProcCompiler
