import ProcCompiler.Proofs.Draft.SingleAssignment
import ProcCompiler.Proofs.Lowering.OwnBindings
import ProcCompiler.Proofs.Routine.Handover
import ProcCompiler.Proofs.Routine.Made
/-!
# Registers stay with their variables

No pass of lowering hands the register of one variable to another. The registers of a join are made
for the variables that the join needs, an argument comes in a register of its own, and delivery
hands on what blocks bind. So from pass to pass blocks bind variables to registers of theirs, and an
operand stays what it is or becomes a register of the variable that it waits for.

* `Block.Supplied`, `Routine.Supplied`: what a pass does to a block and to a routine.
* `Supplied.addExit`, `Supplied.splitJoins`, `Supplied.bindArguments`, `Supplied.deliverAll`: the
  passes.
* `Routine.After`: the stages of lowering by number.
* `After.typed`, `After.supplied`: bindings at every stage, and operands from stage to stage.
* `Passes.params_delivered`: after delivery no block that the entry reaches waits.
-/
namespace ProcCompiler

open Routine

/-! ## Blocks that are supplied with registers -/

namespace Block

/-- What the operand at a place names. -/
def refAt? (b : Block) (i : Nat) : Option Ref := (b.operandAt? i).map (Operand.ref b.params)

/-- The actions without what they read. -/
def actions (b : Block) : List (Action Reg Unit) := b.body.map (Action.mapRead fun _ => ())

/-- The same actions write the same. -/
theorem writes_eq (b : Block) : b.writes = b.actions.filterMap Action.write? := by
  rw [actions, List.filterMap_map]
  exact List.filterMap_congr fun a _ => (Action.write?_mapRead _ a).symm

theorem actions_eq (b : Block) : b.actions = b.bodyRefs.map (Action.mapRead fun _ => ()) := by
  rw [actions, bodyRefs, List.map_map]
  refine List.map_congr_left fun a _ => ?_
  rw [Function.comp, Action.mapRead_mapRead]

/-- `b'` is `b` after some of what it waits for arrived, in registers that belong to the
variables. -/
structure Supplied (own : Reg → Var → Prop) (b b' : Block) : Prop where
  actions : b'.actions = b.actions
  reads : ∀ i x, b.refAt? i = some x →
    b'.refAt? i = some x ∨ ∃ v r, x = .var v ∧ own r v ∧ b'.refAt? i = some (.reg r)
  bindings : ∀ v r, b'.binding? v = some r → b.binding? v = some r ∨ own r v

namespace Supplied

variable {own own' : Reg → Var → Prop} {b b' b'' : Block}

theorem refl (b : Block) : Supplied own b b := ⟨rfl, fun _ _ h => .inl h, fun _ _ h => .inl h⟩

theorem mono (h : Supplied own b b') (ho : ∀ r v, own r v → own' r v) : Supplied own' b b' where
  actions := h.actions
  reads i x hx := (h.reads i x hx).imp_right fun ⟨v, r, hv, hr, hb⟩ => ⟨v, r, hv, ho r v hr, hb⟩
  bindings v r hr := (h.bindings v r hr).imp_right (ho r v)

theorem trans (h : Supplied own b b') (h' : Supplied own b' b'') : Supplied own b b'' where
  actions := h'.actions.trans h.actions
  reads i x hx := by
    rcases h.reads i x hx with hx | ⟨v, r, rfl, hr, hb⟩
    · exact h'.reads i x hx
    · rcases h'.reads i _ hb with hb | ⟨_, _, hv, -⟩
      · exact .inr ⟨v, r, rfl, hr, hb⟩
      · cases hv
  bindings v r hr := by
    rcases h'.bindings v r hr with hr | hr
    · exact h.bindings v r hr
    · exact .inr hr

theorem writes (h : Supplied own b b') : b'.writes = b.writes := by
  rw [writes_eq, writes_eq, h.actions]

theorem of_sameCode (h : SameCode b b') (hb : b'.body = b.body) : Supplied own b b' where
  actions := congrArg (List.map _) hb
  reads i x hx := by
    left
    rw [refAt?, h.operand, h.params]
    exact hx
  bindings v r hr := by
    left
    rwa [h.binding] at hr

theorem of_filled {σ : Var → Option Reg} (h : Filled b b' σ) (ho : ∀ v r, σ v = some r → own r v) :
    Supplied own b b' where
  actions := by
    rw [actions_eq, actions_eq, h.body, List.map_map]
    exact List.map_congr_left fun a _ => Action.mapRead_mapRead _ _ a
  reads i x hx := by
    have hread : b'.refAt? i = some (x.fill σ) := by
      obtain ⟨o, ho', rfl⟩ := Option.map_eq_some_iff.mp hx
      rw [refAt?, h.ref_operandAt?, ho']
      rfl
    cases x with
    | var v =>
      cases hv : σ v with
      | none => exact .inl (by rw [hread, Ref.fill, hv])
      | some r => exact .inr ⟨v, r, rfl, ho v r hv, by rw [hread, Ref.fill, hv]⟩
    | _ => exact .inl hread
  bindings v r hr := by
    rw [h.binding, Option.or_eq_some_iff] at hr
    exact hr.imp_right fun hσ => ho v r hσ.2

theorem receive (hn : b.params.Nodup) {v : Var} {r : Reg} (hr : own r v) :
    Supplied own b (b.receive v r) := by
  refine of_filled (filled_receive hn v r) fun w s hs => ?_
  by_cases hw : w = v
  · subst hw
    rw [Function.update_self] at hs
    exact Option.some.inj hs ▸ hr
  · rw [Function.update_of_ne hw] at hs
    cases hs

theorem bind (b : Block) {v : Var} {r : Reg} (hr : own r v) : Supplied own b (b.bind v r) where
  actions := rfl
  reads i x hx := .inl hx
  bindings w s hs := by
    rw [binding?_bind] at hs
    split at hs
    · rename_i hw
      exact .inr (hw ▸ Option.some.inj hs ▸ hr)
    · exact .inl hs

/-- An exit comes last, and moves no operand. -/
theorem add_jump (hx : b.exit = none) (l : Label) : Supplied own b (b.add (.exit (.jump l))) where
  actions := rfl
  reads i x hi := by
    left
    have hcode : (b.add (.exit (.jump l))).code = b.code ++ [.exit (.jump l)] := by
      simp [code, add, hx]
    obtain ⟨o, ho, hx⟩ := Option.map_eq_some_iff.mp hi
    obtain ⟨y, hy, hread⟩ := Option.bind_eq_some_iff.mp ho
    have hy' : (b.add (.exit (.jump l))).code[i]? = some y := by
      rw [hcode, List.getElem?_append_left (List.getElem?_eq_some_iff.mp hy).1, hy]
    rw [refAt?, operandAt?, hy', Option.bind_some, hread]
    exact congrArg some hx
  bindings w s hs := .inl hs

end Supplied

end Block

theorem Block.binding?_empty (v : Var) : binding? {} v = none := by simp [binding?]

/-! ## Routines -/

namespace Routine

/-- `f'` is `f` after a pass: registers and blocks come to those that there are, and what arrives in
a block or is bound by it belongs to its variable. -/
structure Supplied (f f' : Routine) : Prop where
  size : f.blocks.size ≤ f'.blocks.size
  owns : ∀ r v, f.Owns r v → f'.Owns r v
  old : ∀ b < f.blocks.size, Block.Supplied f'.Owns (f.block b) (f'.block b)
  new : ∀ b, f.blocks.size ≤ b → ∀ v r, (f'.block b).binding? v = some r → f'.Owns r v

theorem owns_congr {f f' : Routine} (h : f'.regs = f.regs) : f'.Owns = f.Owns := by
  unfold Owns regInfo?
  rw [h]

theorem regInfo?_natCast (f : Routine) (k : Nat) : f.regInfo? (k : Reg) = f.regs.toList[k]? :=
  (Array.getElem?_toList).symm

section

variable {f f' : Routine} {more : List RegInfo} (h : f'.regs.toList = f.regs.toList ++ more)
  {r : Reg} {info : RegInfo}

include h

/-- A register stays what it is when others come. -/
theorem regInfo?_of_append (hr : f.regInfo? r = some info) : f'.regInfo? r = some info := by
  obtain ⟨k, hk, rfl⟩ := regInfo?_isSome.mp (Option.isSome_of_eq_some hr)
  rw [regInfo?_natCast] at hr ⊢
  rw [h, List.getElem?_append_left (List.getElem?_eq_some_iff.mp hr).1, hr]

/-- A register that was not there is one of those that came. -/
theorem exists_of_append (hr : f'.regInfo? r = some info) (hnone : f.regInfo? r = none) :
    ∃ k : Nat, r = ((f.regs.size + k : Nat) : Reg) ∧ more[k]? = some info := by
  obtain ⟨j, -, rfl⟩ := regInfo?_isSome.mp (Option.isSome_of_eq_some hr)
  rw [regInfo?_natCast] at hr hnone
  have hle : f.regs.size ≤ j := by simpa using hnone
  obtain ⟨k, rfl⟩ := Nat.exists_eq_add_of_le hle
  refine ⟨k, rfl, ?_⟩
  rwa [h, List.getElem?_append_right (by simp), Array.length_toList, Nat.add_sub_cancel_left] at hr

theorem owns_of_append {v : Var} (hr : f.Owns r v) : f'.Owns r v := by
  obtain ⟨info, hinfo, hv⟩ := Option.map_eq_some_iff.mp hr
  rw [Owns, regInfo?_of_append h hinfo, Option.map_some, hv]

end

end Routine

theorem SplitOf.owns_shared {f f' : Routine} {n : Needs} (h : SplitOf f n f') {t : BlockId}
    (ht : f.graph.IsJoin n t) {v : Var} (hv : v ∈ n.of t) : f'.Owns (f.shared n t v) v := by
  obtain ⟨r, hr, -, hinfo⟩ := h.shared_spec ht hv
  show (f'.regInfo? _).map _ = _
  rw [hr]
  show (f'.regs[r]?).map _ = _
  rw [hinfo]
  rfl

namespace Routine

theorem exitLabels_bindSlot (f : Routine) (slots : List Slot) (missing : List String) (v : Var)
    (b : BlockId) :
    ((bindSlot slots (f, missing) v).1.block b).exitLabels = (f.block b).exitLabels := by
  simp only [bindSlot]
  split
  · exact view_modifyBlock Block.exitLabels (f.pushReg _) entry _
      (fun x => (x.bind v _).exitLabels_receive v _) b
  · rfl

namespace Supplied

variable {f f' f'' : Routine}

theorem refl (f : Routine) : Supplied f f where
  size := Nat.le_refl _
  owns _ _ h := h
  old b _ := .refl _
  new b hb v r hr := by
    rw [block_of_le hb, Block.binding?_empty] at hr
    cases hr

theorem trans (h : Supplied f f') (h' : Supplied f' f'') : Supplied f f'' where
  size := Nat.le_trans h.size h'.size
  owns r v hr := h'.owns r v (h.owns r v hr)
  old b hb := ((h.old b hb).mono h'.owns).trans (h'.old b (Nat.lt_of_lt_of_le hb h.size))
  new b hb v r hr := by
    by_cases hb' : b < f'.blocks.size
    · rcases (h'.old b hb').bindings v r hr with hr | hr
      · exact h'.owns r v (h.new b hb v r hr)
      · exact hr
    · exact h'.new b (Nat.le_of_not_lt hb') v r hr

theorem typed (h : Supplied f f') (hf : f.Typed) : f'.Typed := by
  intro b v r hr
  by_cases hb : b < f.blocks.size
  · rcases (h.old b hb).bindings v r hr with hr | hr
    · exact h.owns r v (hf b v r hr)
    · exact hr
  · exact h.new b (Nat.le_of_not_lt hb) v r hr

/-- A block changes, and the registers stay. -/
theorem modifyBlock (f : Routine) (b : BlockId) {change : Block → Block}
    (hc : Block.Supplied f.Owns (f.block b) (change (f.block b))) :
    Supplied f (f.modifyBlock b change) where
  size := by simp
  owns _ _ h := h
  old c hlt := by
    by_cases hcb : b = c
    · subst hcb
      rw [block_modifyBlock_self hlt]
      exact hc
    · rw [block_modifyBlock_ne hcb]
      exact .refl _
  new c hlt v r hr := by
    rw [block_of_le (by simpa using hlt), Block.binding?_empty] at hr
    cases hr

theorem pushReg (f : Routine) (info : RegInfo) : Supplied f (f.pushReg info) where
  size := Nat.le_refl _
  owns _ _ := owns_pushReg info
  old b _ := .refl _
  new b hb v r hr := by
    have hempty : (f.pushReg info).block b = {} := block_of_le hb
    rw [hempty, Block.binding?_empty] at hr
    cases hr

/-- A pass that makes no block leaves all actions alone. -/
theorem actions (h : Supplied f f') (hsize : f'.blocks.size = f.blocks.size) (b : BlockId) :
    (f'.block b).actions = (f.block b).actions := by
  by_cases hb : b < f.blocks.size
  · exact (h.old b hb).actions
  · rw [block_of_le (Nat.le_of_not_lt hb), block_of_le (hsize ▸ Nat.le_of_not_lt hb)]

/-! ## One pass -/

theorem addExit (f : Routine) (g : FlowGraph) : Supplied f (f.addExit g).1 where
  size := by simp
  owns _ _ h := by rwa [owns_congr (regs_addExit ..)]
  old b hb := by
    rw [block_addExit hb]
    split
    · exact .of_sameCode (Block.sameCode_redirectReturn _ _) (by simp)
    · exact .refl _
  new b hb v r hr := by
    rcases f.block_addExit_cases g b with (h | h) | h
    · rw [h, block_of_le hb, Block.binding?_empty] at hr
      cases hr
    · rw [h, block_of_le hb] at hr
      simp [Block.binding?] at hr
    · rw [h] at hr
      simp [Block.binding?] at hr

theorem splitJoins {n : Needs} (h : SplitOf f n f') (hd : f.Distinct) : Supplied f f' where
  size := Nat.le.intro h.size.symm
  owns _ _ hr := owns_of_append h.split.regs hr
  old b hb := by
    have hlabels : Block.Supplied f'.Owns (f.block b) ((f.block b).mapLabel (f.viaLabel n b)) :=
      .of_sameCode (Block.sameCode_mapLabel _ _) rfl
    by_cases hj : f.graph.IsJoin n b
    · refine hlabels.trans (.of_filled (h.filled_join hj (hd b)) fun v r hr => ?_)
      obtain ⟨hv, hs⟩ := Option.ite_none_right_eq_some.mp hr
      exact Option.some.inj hs ▸ h.owns_shared hj hv
    · rw [h.block_other hb hj]
      exact hlabels
  new b hb v r hr := by
    have hlt := lt_of_binding? hr
    rcases h.old_or_edge hlt with hold | ⟨e, he, rfl⟩
    · exact absurd hold (Nat.not_lt.mpr hb)
    · rw [h.block_edge he, binding?_edgeBlock (Needs.nodup_of (nodup_sites h.needs) _)] at hr
      obtain ⟨hv, hs⟩ := Option.ite_none_right_eq_some.mp hr
      exact Option.some.inj hs ▸ h.owns_shared (h.mem_edges.mp he).1 hv

/-- The argument for one variable. -/
theorem bindSlot (hd : f.Distinct) (slots : List Slot) (missing : List String) (v : Var) :
    Supplied f (bindSlot slots (f, missing) v).1 := by
  simp only [Routine.bindSlot]
  split
  · rename_i slot _
    have hown := f.owns_new { var := v, slot := some slot }
    refine (Supplied.pushReg f _).trans (Supplied.modifyBlock _ entry ?_)
    exact (Block.Supplied.bind _ hown).trans
      (.receive (b := (f.block entry).bind v _) (hd entry) hown)
  · exact .refl f

theorem bindArguments {n : Needs} {slots : List Slot} {e : Option SignatureError} (hd : f.Distinct)
    (h : f.bindArguments n slots = .ok (f', e)) : Supplied f f' := by
  unfold Routine.bindArguments at h
  split at h
  · cases h
  · rename_i hopen
    have hopen : (f.block entry).exitLabels = none := by
      simpa [Block.isComplete, Block.exitLabels] using hopen
    have hfold := foldl_inv (Routine.bindSlot slots)
      (fun _ s => s.1.Distinct ∧ Supplied f s.1 ∧ (s.1.block entry).exitLabels = none)
      (n.of entry) (f, []) ⟨hd, .refl f, hopen⟩ fun _ v _ s _ hs =>
        ⟨hs.1.bindSlot slots s.2 v, hs.2.1.trans (.bindSlot hs.1 slots s.2 v),
          (exitLabels_bindSlot s.1 slots s.2 v entry).trans hs.2.2⟩
    split at h
    · rename_i f₁ heq
      rw [heq] at hfold
      cases h
      exact hfold.2.1.trans
        (.modifyBlock f₁ entry (.add_jump (Option.map_eq_none_iff.mp hfold.2.2) _))
    · rename_i f₁ missing _ heq
      rw [heq] at hfold
      cases h
      exact hfold.2.1

/-- A block passes on what arrived or what it binds, and both are registers of the variable. -/
theorem deliverAll {g : FlowGraph} (hd : f.Distinct) (hf : f.Typed) (h : f.deliverAll g = .ok f') :
    Supplied f f' := by
  obtain ⟨n, t, -, ht, rfl, -⟩ := deliverAll_cases h
  refine (Transit.run_preserves
    (P := fun u => u.routine.Owns = f.Owns ∧ u.routine.Distinct ∧ Supplied f u.routine ∧
      ∀ d ∈ u.queue, f.Owns d.reg d.site.var)
    (Q := fun d => f.Owns d.reg d.site.var) (fun u d dest hu hown _ _ => ?_) (fun u hu => hu.2.2.2)
    (fun u d queue hu hq =>
      ⟨hu.1, hu.2.1, hu.2.2.1, fun e he => hu.2.2.2 e (hq ▸ List.mem_cons_of_mem _ he)⟩) ht
    ⟨rfl, hd, .refl f, fun d hmem => ?_⟩).2.2.1
  · obtain ⟨howns, hdistinct, hsupplied, hqueue⟩ := hu
    have hnext : Supplied f (u.routine.modifyBlock dest (·.receive d.site.var d.reg)) :=
      hsupplied.trans (.modifyBlock _ dest (.receive (hdistinct dest) (howns ▸ hown)))
    refine ⟨howns, hdistinct.modifyBlock _ fun _ hx => Block.nodup_receive hx _ _, hnext,
      fun e he => ?_⟩
    rcases mem_enqueue.mp he with rfl | he
    · refine Transit.handed_of (P := (f.Owns · d.site.var)) hown fun r hbind => ?_
      exact howns ▸ hsupplied.typed hf dest _ r hbind
    · exact hqueue e he
  · obtain ⟨b, -, hb⟩ := List.mem_flatMap.mp (mem_foldr_enqueue.mp hmem)
    obtain ⟨v, r, hr, rfl⟩ := Transit.mem_bindingDeliveries.mp hb
    exact hf b v r hr

end Supplied

end Routine

/-! ## All passes -/

/-- The number of passes that were made. -/
def Progress.passes : Progress → Nat
  | single _ => 1
  | split _ _ => 2
  | bound _ _ _ => 3
  | lacking _ => 3
  | delivered _ => 4

namespace Routine

/-- `g` is `f` after `k` passes of its lowering: the single exit, the split of joins, the arguments,
delivery. -/
inductive After (f : Routine) (slots : List Slot) : Nat → Routine → Prop where
  | built : After f slots 0 f
  | passed {p : Progress} (h : f.Passes slots p) : After f slots p.passes p.routine

variable {f : Routine} {slots : List Slot}

/-- Each pass is determined by those before. -/
theorem Passes.unique {p q : Progress} (hp : f.Passes slots p) (hq : f.Passes slots q)
    (h : p.passes = q.passes) :
    p = q := by
  induction hp generalizing q with
  | exit hg =>
    cases hq with
    | exit hg' => cases hg.symm.trans hg'; rfl
    | _ => cases h
  | joins _ hg hn hs ih =>
    cases hq with
    | joins hq' hg' hn' hs' =>
      cases ih hq' rfl
      cases hg.symm.trans hg'
      cases hn.symm.trans hn'
      cases hs.symm.trans hs'
      rfl
    | _ => cases h
  | arguments _ hg hb ih =>
    cases hq with
    | arguments hq' hg' hb' =>
      cases ih hq' rfl
      cases hg.symm.trans hg'
      cases hb.symm.trans hb'
      rfl
    | missing hq' _ hb' =>
      cases ih hq' rfl
      cases hb.symm.trans hb'
    | _ => cases h
  | missing _ _ hb ih =>
    cases hq with
    | missing hq' _ hb' =>
      cases ih hq' rfl
      cases hb.symm.trans hb'
      rfl
    | arguments hq' _ hb' =>
      cases ih hq' rfl
      cases hb.symm.trans hb'
    | _ => cases h
  | delivery _ _ hd ih =>
    cases hq with
    | delivery hq' _ hd' =>
      cases ih hq' rfl
      cases hd.symm.trans hd'
      rfl
    | _ => cases h

theorem Passes.passes_pos {p : Progress} (h : f.Passes slots p) : 0 < p.passes := by
  cases h <;> exact Nat.succ_pos _

theorem After.eq_or_lt {j : Nat} {e : Routine} {p : Progress} (he : f.After slots j e)
    (hp : f.Passes slots p) (hj : j ≤ p.passes) : e = p.routine ∨ j < p.passes := by
  rcases Nat.lt_or_eq_of_le hj with hlt | heq
  · exact .inr hlt
  · cases he with
    | built => exact .inr (heq ▸ hp.passes_pos)
    | passed hq => exact .inl (by rw [hq.unique hp heq])

theorem After.eq_built {j : Nat} {e : Routine} (he : f.After slots j e) (hj : j = 0) : e = f := by
  cases he with
  | built => rfl
  | passed hq => exact absurd hj (Nat.ne_of_gt hq.passes_pos)

theorem After.le_four {j : Nat} {e : Routine} (he : f.After slots j e) : j ≤ 4 := by
  cases he with
  | built => exact Nat.zero_le 4
  | passed hq => cases hq <;> simp [Progress.passes]

/-- The last pass is delivery. -/
theorem After.delivered {k : Nat} {g : Routine} (hg : f.After slots k g) (hk : k = 4) :
    f.Passes slots (.delivered g) := by
  cases hg with
  | built => cases hk
  | passed hp =>
    cases hp with
    | delivery h hc hd => exact .delivery h hc hd
    | _ => cases hk

/-- Every pass keeps parameters distinct and bindings typed. -/
theorem Passes.typed (hd : f.Distinct) (hf : f.Typed) {p : Progress} (hp : f.Passes slots p) :
    p.routine.Distinct ∧ p.routine.Typed := by
  induction hp with
  | exit hg => exact ⟨hd.addExit _, (Supplied.addExit f _).typed hf⟩
  | joins _ hg hn hs ih =>
    obtain ⟨hsplit, -⟩ := splitOf_of_splitJoins hg hn hs
    exact ⟨ih.1.splitJoins (Needs.nodup_of (nodup_sites hn)) hs,
      (Supplied.splitJoins hsplit ih.1).typed ih.2⟩
  | arguments _ _ hb ih =>
    exact ⟨ih.1.bindArguments hb, (Supplied.bindArguments ih.1 hb).typed ih.2⟩
  | missing _ _ hb ih => exact ⟨ih.1.bindArguments hb, (Supplied.bindArguments ih.1 hb).typed ih.2⟩
  | delivery _ _ hd ih => exact ⟨ih.1.deliverAll hd, (Supplied.deliverAll ih.1 ih.2 hd).typed ih.2⟩

/-- From pass to pass, operands stay what they are, or become registers of the variable that they
wait for. -/
theorem Passes.supplied (hd : f.Distinct) (hf : f.Typed) {p : Progress} (hp : f.Passes slots p)
    {j : Nat} {e : Routine} (he : f.After slots j e) (hj : j ≤ p.passes) :
    e.Supplied p.routine := by
  induction hp with
  | exit hg =>
    rcases he.eq_or_lt (.exit hg) hj with rfl | hlt
    · exact .refl _
    · rw [he.eq_built (Nat.lt_one_iff.mp hlt)]
      exact .addExit f _
  | joins h hg hn hs ih =>
    rcases he.eq_or_lt (.joins h hg hn hs) hj with rfl | hlt
    · exact .refl _
    · obtain ⟨hsplit, -⟩ := splitOf_of_splitJoins hg hn hs
      exact (ih (Nat.le_of_lt_succ hlt)).trans (.splitJoins hsplit (h.typed hd hf).1)
  | arguments h hg hb ih =>
    rcases he.eq_or_lt (.arguments h hg hb) hj with rfl | hlt
    · exact .refl _
    · exact (ih (Nat.le_of_lt_succ hlt)).trans (.bindArguments (h.typed hd hf).1 hb)
  | missing h hg hb ih =>
    rcases he.eq_or_lt (.missing h hg hb) hj with rfl | hlt
    · exact .refl _
    · exact (ih (Nat.le_of_lt_succ hlt)).trans (.bindArguments (h.typed hd hf).1 hb)
  | delivery h hc hd' ih =>
    rcases he.eq_or_lt (.delivery h hc hd') hj with rfl | hlt
    · exact .refl _
    · obtain ⟨hdistinct, htyped⟩ := h.typed hd hf
      exact (ih (Nat.le_of_lt_succ hlt)).trans (.deliverAll hdistinct htyped hd')

namespace After

variable (hd : f.Distinct) (hf : f.Typed)

include hd hf

theorem typed {k : Nat} {g : Routine} (h : f.After slots k g) : g.Typed := by
  cases h with
  | built => exact hf
  | passed hp => exact (hp.typed hd hf).2

theorem supplied {j k : Nat} {e g : Routine} (he : f.After slots j e) (hg : f.After slots k g)
    (hjk : j ≤ k) :
    e.Supplied g := by
  cases hg with
  | built =>
    rw [he.eq_built (Nat.le_zero.mp hjk)]
    exact .refl f
  | passed hp => exact hp.supplied hd hf he hjk

end After

/-- The operand at a place of a block is a parameter for the variable. -/
def Awaits (f : Routine) (b : BlockId) (i : Nat) (v : Var) : Prop :=
  ∃ k, (f.block b).operandAt? i = some (.param k) ∧ (f.block b).params[k]? = some v

theorem awaits_iff {g : Routine} {b : BlockId} {i : Nat} {v : Var} :
    g.Awaits b i v ↔ (g.block b).refAt? i = some (.var v) := by
  simp only [Awaits, Block.refAt?, Option.map_eq_some_iff, Operand.ref_eq_var]
  constructor
  · rintro ⟨k, ho, hk⟩
    exact ⟨_, ho, k, rfl, hk⟩
  · rintro ⟨_, ho, k, rfl, hk⟩
    exact ⟨k, ho, hk⟩

theorem Awaits.lt {g : Routine} {b : BlockId} {i : Nat} {v : Var} (h : g.Awaits b i v) :
    b < g.blocks.size := by
  obtain ⟨k, ho, -⟩ := h
  by_contra hb
  rw [block_of_le (Nat.le_of_not_lt hb)] at ho
  cases ho

/-- What waits for a variable goes on to do so, or reads a register of the variable. -/
theorem Supplied.awaits {e g : Routine} (h : e.Supplied g) {b : BlockId} {i : Nat} {v : Var}
    (ha : e.Awaits b i v) :
    g.Awaits b i v ∨ ∃ r, (g.block b).operandAt? i = some (.reg r) ∧ g.Owns r v := by
  rcases (h.old b ha.lt).reads i _ (awaits_iff.mp ha) with hx | ⟨w, r, hw, hr, hx⟩
  · exact .inl (awaits_iff.mpr hx)
  · cases hw
    obtain ⟨o, ho, hreg⟩ := Option.map_eq_some_iff.mp hx
    exact .inr ⟨r, by rw [ho, Operand.ref_eq_reg.mp hreg], hr⟩

/-- After delivery no block that the entry reaches waits. -/
theorem Passes.params_delivered {F : Routine} (h : f.Passes slots (.delivered F)) {b : BlockId}
    (hb : b ∈ F.graph.order) : (F.block b).params = [] := by
  cases h with
  | delivery h _ hd =>
    cases h with
    | arguments _ hg hb' =>
      rw [← eq_graph_of_analyze (analyze_delivered hg hb' hd)] at hb
      obtain ⟨_, _, -, -, -, hparams⟩ := deliverAll_cases hd
      exact hparams b hb

end Routine

end ProcCompiler
