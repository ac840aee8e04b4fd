import ProcCompiler.Proofs.Compilation.Accepted
import ProcCompiler.Proofs.Lowering.Numbering
/-!
# Drafts write each register once

A statement that writes a variable makes a register for it and appends the one instruction that
writes the register. The other statements make no register and append nothing that writes. So in the
routine of a drafted procedure each register is written by exactly one instruction, and a block
binds a variable only to a register that was made for it.

* `Drafting.Keeps`: what a step of drafting keeps of the routine.
* `ProcDecl.keeps_draft`: what the calls of the builder keep holds of a drafted routine.
* `ProcDecl.writesEach_of_draft`: each register is written once.
* `ProcDecl.typed_of_draft`: bindings are to registers of the variable.
-/
namespace ProcCompiler

/-! ## Steps that keep a property of the routine -/

/-- A call of the builder that succeeds keeps the property. -/
def Build.Keeps (P : Routine → Prop) {α : Type} (x : Build α) : Prop :=
  ∀ f a f', x f = .ok a f' → P f → P f'

namespace Drafting

/-- A step of drafting that succeeds keeps the property of the routine. -/
def Keeps (P : Routine → Prop) {α : Type} (m : Drafting α) : Prop :=
  ∀ d a d', m d = .ok (a, d') → P d.routine → P d'.routine

variable {P : Routine → Prop} {α β : Type}

theorem keeps_pure (a : α) : Keeps P (pure a) := by
  rintro d _ _ ⟨⟩ h
  exact h

theorem keeps_throw (e : ProcError) : Keeps P (throw e : Drafting α) := by
  rintro d a d' ⟨⟩

theorem keeps_throw_bind (e : ProcError) (next : α → Drafting β) : Keeps P (throw e >>= next) := by
  rintro d a d' ⟨⟩

theorem keeps_get : Keeps P (get : Drafting Draft) := by
  rintro d _ _ ⟨⟩ h
  exact h

theorem keeps_modify {change : Draft → Draft} (hc : ∀ d, (change d).routine = d.routine) :
    Keeps P (modify change : Drafting Unit) := by
  rintro d _ _ ⟨⟩ h
  rwa [hc]

theorem Keeps.bind {m : Drafting α} {next : α → Drafting β} (hm : Keeps P m)
    (hnext : ∀ a, Keeps P (next a)) :
    Keeps P (m >>= next) := by
  intro d b d' hb h
  obtain ⟨⟨a, d₁⟩, ha, hb⟩ := ok_of_bind (show (m d).bind (fun r => next r.1 r.2) = _ from hb)
  exact hnext a d₁ b d' hb (hm d a d₁ ha h)

theorem Keeps.discard {m : Drafting α} (hm : Keeps P m) : Keeps P (discard m) :=
  hm.bind fun _ => keeps_pure _

theorem keeps_build {x : Build α} (hx : Build.Keeps P x) : Keeps P (build x) := by
  intro d a d' hb h
  unfold build at hb
  split at hb
  · rename_i f heq
    cases hb
    exact hx _ _ _ heq h
  · cases hb

theorem keeps_mapM {m : α → Drafting β} (hm : ∀ a, Keeps P (m a)) :
    ∀ as : List α, Keeps P (as.mapM m)
  | [] => keeps_pure _
  | a :: as => by
    rw [List.mapM_cons]
    exact (hm a).bind fun _ => (keeps_mapM hm as).bind fun _ => keeps_pure _

theorem keeps_forM {m : α → Drafting Unit} (hm : ∀ a, Keeps P (m a)) :
    ∀ as : List α, Keeps P (as.forM m)
  | [] => keeps_pure _
  | a :: as => (hm a).bind fun _ => keeps_forM hm as

/-- The calls that drafting makes keep the property. -/
structure Stable (P : Routine → Prop) : Prop where
  newVar : ∀ name, Build.Keeps P (Build.newVar name)
  createBlock : Build.Keeps P Build.createBlock
  move : ∀ (b : BlockId) dst src, Build.Keeps P (Build.move b dst src)
  call : ∀ (b : BlockId) fn v, Build.Keeps P (Build.call b fn v)
  branch : ∀ (b : BlockId) cond taken other, Build.Keeps P (Build.branch b cond taken other)
  exit : ∀ (b : BlockId) e, Build.Keeps P (Build.add b (.exit e))

namespace Stable

variable (hP : Stable P)

include hP

theorem varOf (name : String) : Keeps P (varOf name) := by
  refine keeps_get.bind fun d => ?_
  split
  · exact keeps_pure _
  · exact keeps_build (hP.newVar name)

theorem blockOf (id : Ident) : Keeps P (blockOf id) := by
  refine keeps_get.bind fun d => ?_
  split
  · exact keeps_pure _
  · refine (keeps_build hP.createBlock).bind fun b => Keeps.bind ?_ fun _ => keeps_pure _
    exact keeps_modify fun _ => rfl

theorem label (id : Ident) : Keeps P (label id) := by
  refine keeps_get.bind fun d => ?_
  split
  · exact keeps_throw_bind _ _
  · refine (hP.blockOf id).bind fun b => Keeps.bind (keeps_modify fun _ => rfl) fun _ =>
      keeps_get.bind fun d => ?_
    split
    · refine (keeps_build (hP.exit _ _)).bind fun _ => ?_
      exact keeps_modify fun _ => rfl
    · exact keeps_modify fun _ => rfl

theorem code (table : ForeignTable) (b : BlockId) (s : Stmt) : Keeps P (code table b s) := by
  have hleave : Keeps P leave := keeps_modify fun _ => rfl
  cases s with
  | label id => exact keeps_throw _
  | move dst src =>
    exact (hP.varOf _).bind fun v => (hP.varOf _).bind fun w =>
      (keeps_build (hP.move b w v)).discard
  | call fn var =>
    simp only [Drafting.code]
    split
    · exact keeps_throw _
    · exact (hP.varOf _).bind fun v => (keeps_build (hP.call b _ v)).discard
  | goto target =>
    exact (hP.blockOf _).bind fun t => (keeps_build (hP.exit b _)).bind fun _ => hleave
  | branch cond yes no =>
    exact (hP.varOf _).bind fun v => (hP.blockOf _).bind fun t => (hP.blockOf _).bind fun u =>
      (keeps_build (hP.branch b v t u)).discard.bind fun _ => hleave
  | ret span => exact (keeps_build (hP.exit b _)).bind fun _ => hleave
  | unknown => exact keeps_throw _

theorem statement (table : ForeignTable) (s : Stmt) : Keeps P (statement table s) := by
  cases s with
  | label id => exact hP.label id
  | _ =>
    refine keeps_get.bind fun d => ?_
    split
    · exact hP.code table _ _
    · exact keeps_throw _

theorem finish : Keeps P finish := by
  refine keeps_get.bind fun d => ?_
  split
  · refine (keeps_build (hP.exit _ _)).bind fun _ => keeps_get.bind fun d => ?_
    split
    · exact keeps_throw _
    · exact keeps_pure _
  · refine keeps_get.bind fun d => ?_
    split
    · exact keeps_throw _
    · exact keeps_pure _

end Stable

end Drafting

/-- What the calls of the builder keep holds of every drafted routine. -/
theorem ProcDecl.keeps_draft {P : Routine → Prop} (hP : Drafting.Stable P) {table : ForeignTable}
    {x : ProcDecl} {f : Routine} {slots : List Slot} (h : x.draft table = .ok (f, slots))
    (hnew : P (.new x.name.name)) : P f := by
  have hkeeps : Drafting.Keeps P (x.drafting table) := by
    unfold drafting
    refine Drafting.Keeps.bind (Drafting.keeps_mapM (fun a => ?_) x.args) fun slots => ?_
    · exact (hP.varOf a.name.name).bind fun _ => Drafting.keeps_pure _
    · refine (Drafting.keeps_build hP.createBlock).bind fun b => Drafting.Keeps.bind ?_ fun _ => ?_
      · exact Drafting.keeps_modify fun _ => rfl
      · refine Drafting.Keeps.bind (Drafting.keeps_forM (hP.statement table) x.body) fun _ => ?_
        exact hP.finish.bind fun _ => Drafting.keeps_pure _
  obtain ⟨⟨slots', d⟩, hd, h⟩ := ok_of_bind h
  cases h
  exact hkeeps _ _ _ hd hnew

/-! ## What a routine writes -/

/-- One more item in one of several lists. -/
theorem perm_flatMap_range {α : Type} {u u' : Nat → List α} {b : Nat} {as : List α}
    (hself : u' b = u b ++ as) (hne : ∀ c, b ≠ c → u' c = u c) : ∀ {n : Nat}, b < n →
      ((List.range n).flatMap u').Perm ((List.range n).flatMap u ++ as)
  | n + 1, hb => by
    simp only [List.range_succ, List.flatMap_append, List.flatMap_singleton]
    rcases Nat.lt_succ_iff_lt_or_eq.mp hb with hb | rfl
    · rw [hne n (Nat.ne_of_lt hb), List.append_assoc]
      refine ((perm_flatMap_range hself hne hb).append_right _).trans ?_
      rw [List.append_assoc]
      exact List.perm_append_comm.append_left _
    · have hbefore : (List.range b).flatMap u' = (List.range b).flatMap u :=
        List.flatMap_congr fun c hc => hne c (Nat.ne_of_gt (List.mem_range.mp hc))
      rw [hself, hbefore, List.append_assoc]

theorem Block.writes_read (b : Block) (v : Var) : (b.read v).2.writes = b.writes := by
  rcases b.read_cases v with h | ⟨-, h⟩ <;> rw [h]
  rfl

namespace Routine

/-- The registers that the instructions of the routine write, block by block. -/
def writes (f : Routine) : List Reg :=
  (List.range f.blocks.size).flatMap fun b => (f.block b).writes

theorem mem_writes {f : Routine} {r : Reg} :
    r ∈ f.writes ↔ ∃ b < f.blocks.size, r ∈ (f.block b).writes := by
  simp [writes]

/-- Blocks that write the same. -/
theorem writes_congr {f f' : Routine} (hs : f'.blocks.size = f.blocks.size)
    (hw : ∀ b, (f'.block b).writes = (f.block b).writes) : f'.writes = f.writes := by
  unfold writes
  rw [hs]
  exact List.flatMap_congr fun b _ => hw b

theorem regInfo?_isSome {f : Routine} {r : Reg} :
    (f.regInfo? r).isSome ↔ ∃ k : Nat, k < f.regs.size ∧ (k : Reg) = r := by
  cases r with
  | ofNat k =>
    rw [regInfo?, isSome_getElem?]
    exact ⟨fun hk => ⟨k, hk, rfl⟩, fun ⟨j, hj, he⟩ => Int.ofNat.inj he ▸ hj⟩
  | negSucc k => simp [regInfo?]

/-- Each register is written by one instruction, and nothing but registers of the routine is
written. -/
def WritesEach (f : Routine) : Prop :=
  f.writes.Perm ((List.range f.regs.size).map fun k : Nat => (k : Reg))

namespace WritesEach

variable {f : Routine}

theorem mem_iff (h : f.WritesEach) {r : Reg} : r ∈ f.writes ↔ (f.regInfo? r).isSome := by
  rw [List.Perm.mem_iff h, regInfo?_isSome]
  simp

theorem count_eq_one (h : f.WritesEach) {r : Reg} (hr : (f.regInfo? r).isSome) :
    f.writes.count r = 1 := by
  have hnodup : ((List.range f.regs.size).map fun k : Nat => (k : Reg)).Nodup :=
    List.nodup_range.map fun _ _ => Int.ofNat.inj
  exact List.count_eq_one_of_mem ((List.Perm.nodup_iff h).mpr hnodup) (h.mem_iff.mpr hr)

/-- Nothing is made and nothing more is written. -/
theorem of_same {f' : Routine} (h : f.WritesEach) (hr : f'.regs = f.regs)
    (hs : f'.blocks.size = f.blocks.size) (hw : ∀ b, (f'.block b).writes = (f.block b).writes) :
    f'.WritesEach := by
  unfold WritesEach
  rw [hr, writes_congr hs hw]
  exact h

theorem pushBlock (h : f.WritesEach) : (f.pushBlock {}).WritesEach := by
  have hw : (f.pushBlock {}).writes = f.writes := by
    unfold writes
    rw [size_pushBlock, List.range_succ, List.flatMap_append, List.flatMap_singleton,
      block_pushBlock_self, show Block.writes {} = [] from rfl, List.append_nil]
    exact List.flatMap_congr
      fun b hb => by rw [block_pushBlock_ne (Nat.ne_of_lt (List.mem_range.mp hb))]
  unfold WritesEach
  rw [hw]
  exact h

/-- A statement that writes makes the register that it writes. -/
theorem act (h : f.WritesEach) {b : BlockId} (hb : b < f.blocks.size) {a : Action Var Var} {w : Var}
    (ha : a.write? = some w) (v : Var) : (f.act b a v w).WritesEach := by
  have hregs : (f.act b a v w).regs.size = f.regs.size + 1 := by
    simp [Routine.act, Routine.pushReg, modifyBlock]
  have hself : ((f.act b a v w).block b).writes = (f.block b).writes ++ [(f.regs.size : Reg)] := by
    rw [block_act_self hb, ← Block.writes_read (f.block b) v]
    simp [Block.writes, Block.add, Block.bind, Action.write?_mapWrite, ha]
  have hw : (f.act b a v w).writes.Perm (f.writes ++ [(f.regs.size : Reg)]) := by
    unfold writes
    rw [size_act]
    exact perm_flatMap_range hself (fun c hc => by rw [block_act_ne hc]) hb
  unfold WritesEach
  rw [hregs, List.range_succ, List.map_append]
  exact hw.trans (List.Perm.append_right _ h)

end WritesEach

end Routine

namespace Build

variable {P : Routine → Prop} {f f' : Routine} {b : BlockId}

theorem exists_of_bind {α β : Type} {x : Build α} {next : α → Build β} {c : β}
    (h : (x >>= next) f = .ok c f') :
    ∃ a f₁, x f = .ok a f₁ ∧ next a f₁ = .ok c f' := by
  simp only [bind, EStateM.bind] at h
  split at h
  · exact ⟨_, _, ‹_›, h⟩
  · cases h

theorem Keeps.bind {α β : Type} {x : Build α} {next : α → Build β} (hx : Keeps P x)
    (hnext : ∀ a, Keeps P (next a)) :
    Keeps P (x >>= next) := by
  intro f c f' h hf
  obtain ⟨a, f₁, ha, hc⟩ := exists_of_bind h
  exact hnext a f₁ c f' hc (hx f a f₁ ha hf)

theorem keeps_pure {α : Type} (a : α) : Keeps P (pure a) := by
  rintro f _ _ ⟨⟩ hf
  exact hf

theorem lt_of_read {v : Var} {o : Operand} (h : read (b : Label) v f = .ok o f') :
    b < f.blocks.size := by
  by_contra hb
  rw [read_eq, show f.find? (b : Label) = none from if_neg hb] at h
  cases h

theorem open_of_write (hb : b < f.blocks.size) {v : Var} {r : Reg}
    (h : write (b : Label) v f = .ok r f') :
    (f.block b).exit = none := by
  rw [write_eq, Routine.find?_natCast hb] at h
  by_contra hx
  have hc : (f.block b).isComplete = true := Option.isSome_iff_ne_none.mpr hx
  simp only [if_pos hc] at h
  cases h

theorem keeps_read (b : Label) (v : Var) : Keeps Routine.WritesEach (read b v) := by
  intro f o f' h hf
  rw [read_eq] at h
  split at h
  · rename_i p hp
    cases h
    refine hf.of_same rfl (by simp) fun c => ?_
    by_cases hc : p = c
    · subst hc
      rw [Routine.block_modifyBlock_self (Routine.find?_eq_some.mp hp).2, Block.writes_read]
    · rw [Routine.block_modifyBlock_ne hc]
  · cases h

theorem keeps_exit (b : Label) (e : Exit Operand Label) :
    Keeps Routine.WritesEach (add b (.exit e)) := by
  intro f o f' h hf
  rw [add_eq] at h
  split at h
  · split at h
    · cases h
    · cases h
      exact hf.of_same rfl (by simp)
        (Routine.view_modifyBlock Block.writes f _ (·.add (.exit e)) fun _ => rfl)
  · cases h

/-- A statement that writes: the register that is made is the one that the instruction writes. -/
theorem keeps_act (b : BlockId) (a : Action Var Var) (v : Var) {w : Var} (ha : a.write? = some w) :
    Keeps Routine.WritesEach (do
      let arg ← read (b : Label) v
      let out ← write (b : Label) w
      add (b : Label) (.action ((a.mapRead fun _ => arg).mapWrite fun _ => out))
      return (out, arg) : Build (Reg × Operand)) := by
  intro f x f' h hf
  obtain ⟨o, f₁, hread, hrest⟩ := exists_of_bind h
  obtain ⟨r, f₂, hwrite, -⟩ := exists_of_bind hrest
  have hb := lt_of_read hread
  have hx : (f.block b).exit = none := by
    rw [read_open hb] at hread
    cases hread
    have hopen := open_of_write (by simpa using hb) hwrite
    rwa [Routine.block_modifyBlock_self hb, Block.exit_read] at hopen
  rw [act_open hb hx] at h
  cases h
  exact hf.act hb ha v

end Build

/-- No call of the builder that drafting makes leaves a register without its instruction. -/
theorem stable_writesEach : Drafting.Stable Routine.WritesEach where
  newVar name := by
    rintro f _ _ ⟨⟩ hf
    exact hf
  createBlock := by
    rintro f _ _ ⟨⟩ hf
    exact hf.pushBlock
  move b dst src := Build.keeps_act b (.move dst src) src rfl
  call b fn v := Build.keeps_act b (.call fn v v) v rfl
  branch b cond taken other :=
    (Build.keeps_read b cond).bind fun _ => (Build.keeps_exit b _).bind fun _ => Build.keeps_pure _
  exit b e := Build.keeps_exit b e

namespace ProcDecl

variable {table : ForeignTable} {x : ProcDecl} {f : Routine} {slots : List Slot}

/-- Every register of a drafted routine is written by exactly one instruction. -/
theorem writesEach_of_draft (h : x.draft table = .ok (f, slots)) : f.WritesEach :=
  keeps_draft stable_writesEach h (.refl _)

theorem exists_planned (h : x.draft table = .ok (f, slots)) : ∃ P, Planned table x f slots P := by
  by_cases hx : Stmt.Admitted table [] x.body ∧ Stmt.LabelsDefined x.body
  · obtain ⟨f', slots', P, hdraft, hplanned⟩ := draft_ok hx.1 hx.2
    cases h.symm.trans hdraft
    exact ⟨P, hplanned⟩
  · obtain ⟨e, he, -⟩ := draft_error (x.known_of_draft h) hx
    cases h.symm.trans he

end ProcDecl

/-! ## Bindings -/

/-- Blocks bind variables to registers of theirs. -/
def Routine.Typed (f : Routine) : Prop := ∀ b v r, (f.block b).binding? v = some r → f.Owns r v

theorem Block.Renders.owns_of_binding? {own : Reg → Var → Prop} {b : Block} {s : Listing Var}
    (h : Renders own b s) {v : Var} {r : Reg} (hr : b.binding? v = some r) : own r v := by
  have hloc : b.located v = .reg r := by rw [located, hr]
  rcases h.body.place_cases v with ⟨hv, -⟩ | ⟨r', hv, hown, -⟩
  · cases hloc.symm.trans hv
  · cases hloc.symm.trans hv
    exact hown

theorem ProcDecl.typed_of_draft {table : ForeignTable} {x : ProcDecl} {f : Routine}
    {slots : List Slot} (h : x.draft table = .ok (f, slots)) : f.Typed := by
  obtain ⟨P, hP⟩ := exists_planned h
  exact fun b v r hr => (hP.renders b).owns_of_binding? hr

end ProcCompiler
