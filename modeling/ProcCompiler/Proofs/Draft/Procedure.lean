import ProcCompiler.Proofs.Draft.Plan
import ProcCompiler.Proofs.Routine.Builder
/-!
# Drafting a procedure

A procedure is drafted if each of its statements may stand where it does and every label that it
uses is defined. The routine is then ready for lowering, and the body follows a plan of it. All
other procedures without unknown statements are refused with an error of the user.

* `Draft.Inv.ready`: a finished draft is ready for lowering.
* `ProcDecl.draft_ok`, `ProcDecl.draft_error`: the two outcomes.
-/
namespace ProcCompiler

namespace Draft

variable {d : Draft} {sk : BlockId → Listing Var}

/-! ## The arguments -/

/-- A draft without statements. -/
structure Blank (d : Draft) : Prop where
  growing : d.routine.Growing
  size : d.routine.blocks.size = 1
  vars : d.routine.vars.toList.Nodup
  labels : d.labels = []

theorem blank_new (name : String) : Blank { routine := .new name } :=
  ⟨Routine.growing_new name, rfl, List.nodup_nil, rfl⟩

theorem Blank.addVar (h : d.Blank) (name : String) : (d.addVar name).Blank := by
  refine ⟨?_, ?_, nodup_vars_addVar h.vars name, by rw [labels_addVar, h.labels]⟩
  · unfold Draft.addVar
    split
    · exact h.growing
    · exact h.growing.pushVar name
  · unfold Draft.addVar
    split
    · exact h.size
    · exact h.size

theorem pure_eq {α : Type} (a : α) (d : Draft) : (pure a : Drafting α) d = .ok (a, d) := rfl

/-- The arguments become variables. -/
theorem args_eq (args : List ArgDecl) (h : d.Blank) :
    ∃ d', d'.Blank ∧
      (∀ x ∈ d.routine.vars.toList, x ∈ d'.routine.vars.toList ∧ d'.varAt x = d.varAt x) ∧
      (∀ a ∈ args, a.name.name ∈ d'.routine.vars.toList) ∧
      (args.mapM fun a => return { var := ← Drafting.varOf a.name.name, size := a.size } : Drafting
        (List Slot)) d =
        .ok (args.map fun a => { var := d'.varAt a.name.name, size := a.size }, d') := by
  induction args generalizing d with
  | nil => exact ⟨d, h, fun x hx => ⟨hx, rfl⟩, by simp, rfl⟩
  | cons a args ih =>
    obtain ⟨d', h', hkeep, hargs, hm⟩ := ih (h.addVar a.name.name)
    have ha := hkeep a.name.name (mem_vars_addVar.mpr (.inr rfl))
    refine ⟨d', h', fun x hx => ?_, ?_, ?_⟩
    · obtain ⟨hx', hv⟩ := hkeep x (mem_vars_addVar.mpr (.inl hx))
      exact ⟨hx', hv.trans (varAt_addVar hx _)⟩
    · rintro b (_ | ⟨_, hb⟩)
      · exact ha.1
      · exact hargs b hb
    · rw [List.mapM_cons]
      simp only [bind, StateT.bind, varOf_eq, Except.bind, pure_eq] at hm ⊢
      rw [hm, List.map_cons, ha.2]

/-- With its first block, the draft takes statements. -/
theorem Blank.open (h : d.Blank) :
    Inv { d with routine := d.routine.pushBlock {}, current := some 1 } fun _ => {} := by
  have hblock : ∀ b, (d.routine.pushBlock {}).block b = {} := by
    intro b
    by_cases hb : b = d.routine.blocks.size
    · rw [hb, Routine.block_pushBlock_self]
    · rw [Routine.block_pushBlock_ne hb]
      by_cases hb0 : b = entry
      · rw [hb0, h.growing.entry]
      · exact Routine.block_of_le (by rw [h.size]; exact Nat.one_le_iff_ne_zero.mpr hb0)
  have hsize : (d.routine.pushBlock {}).blocks.size = 2 := by rw [Routine.size_pushBlock, h.size]
  refine ⟨h.growing.pushBlock, Nat.le_of_eq hsize.symm, h.vars, fun b => ?_, fun b _ => rfl, ?_, ?_,
    ?_, ?_, fun b hb => ?_,
    fun b hb hb0 hcur _ => ?_, fun b e he => by cases he⟩
  · rw [hblock]; exact Block.renders_empty _
  · rw [h.labels]; exact List.nodup_nil
  · rw [h.labels]; exact List.nodup_nil
  · rw [h.labels]; simp
  · rw [h.labels]; simp
  · cases hb
    exact ⟨Nat.one_ne_zero, by rw [hsize]; exact Nat.lt_succ_self 1, rfl, by rw [h.labels]; simp⟩
  · rw [hsize] at hb
    have : b = 1 := Nat.le_antisymm (Nat.le_of_lt_succ hb) (Nat.one_le_iff_ne_zero.mpr hb0)
    exact absurd (by rw [this]) hcur

theorem Blank.notes (h : d.Blank) (f : Routine) :
    Notes { d with routine := f, current := some 1 } [] := by
  refine ⟨fun name => ?_, fun name => ?_, rfl⟩
  · rw [h.labels]; simp
  · rw [h.labels]; simp

/-! ## The end of the body -/

/-- A draft without a current block and without undefined labels is ready for lowering. -/
theorem Inv.ready (h : d.Inv sk) (hc : d.current = none) (hl : ∀ e ∈ d.labels, e.defined = true) :
    d.routine.Ready := by
  have hexit : ∀ b,
      (d.routine.block b).exitRef = (sk b).exit.map (·.mapRead (d.routine.block b).located) :=
    fun b => (h.renders b).exit
  refine h.growing.ready ⟨h.body, fun b hb hb0 => ?_, fun b hb l hl' => ?_⟩
  · obtain ⟨e, he⟩ := Option.isSome_iff_exists.mp
      (h.complete b hb hb0 (by rw [hc]; simp) fun e he _ => hl e he)
    have := hexit b
    rw [he, Block.exitRef] at this
    rw [Block.isComplete]
    cases hx : (d.routine.block b).exit with
    | none => rw [hx] at this; cases this
    | some x => rfl
  · unfold Routine.leads at hl'
    split at hl'
    · rename_i e he
      have := hexit b
      rw [Block.exitRef, he] at this
      obtain ⟨s, hs, hse⟩ := Option.map_eq_some_iff.mp this.symm
      refine h.target b s hs l ?_
      rw [← Exit.labels_mapRead (d.routine.block b).located, hse, Exit.labels_mapRead]
      exact hl'
    · rw [List.mem_singleton] at hl'
      exact ⟨1, by rw [hl', h.growing.route], Nat.one_ne_zero, h.body⟩

/-- The end of the body: the current block returns. -/
structure Closes (d : Draft) (sk : BlockId → Listing Var) (d' : Draft)
    (sk' : BlockId → Listing Var) : Prop where
  inv : d'.Inv sk'
  current : d'.current = none
  labels : d'.labels = d.labels
  vars : d'.routine.vars = d.routine.vars
  body : ∀ b, (sk b).body <+: (sk' b).body
  closed : ∀ b, (sk b).exit ≠ none → sk' b = sk b
  ends : ∀ b, d.current = some b → sk' b = { sk b with exit := some .ret }

/-- The current block returns, then the labels are checked. -/
theorem Inv.finish_eq (h : d.Inv sk) : ∃ d' sk', Closes d sk d' sk' ∧
    (Drafting.finish d).map (·.2.routine) = match d.labels.find? (!·.defined) with
      | some e => .error (.undefinedLabel e.firstUse e.name)
      | none => .ok d'.routine := by
  rcases Option.eq_none_or_eq_some d.current with hc | ⟨b, hc⟩
  · refine ⟨d, sk, ⟨h, hc, rfl, rfl, fun b => List.prefix_refl _, fun _ _ => rfl, fun b hb => ?_⟩,
      ?_⟩
    · rw [hc] at hb; cases hb
    · simp only [Drafting.finish, bind, StateT.bind, get, getThe, MonadStateOf.get, StateT.get,
        pure, Except.pure, Except.bind, hc]
      cases d.labels.find? (!·.defined) <;> rfl
  · obtain ⟨-, hlt, hx, -⟩ := h.current b hc
    have hret := Build.add_open hlt ((h.renders b).exit_eq_none hx) (.exit .ret)
    have hi := h.leave hc (e := .ret) rfl (.reg 0) (fun l hl => by cases hl)
    refine ⟨_, _, ⟨hi, rfl, rfl, rfl, fun c => ?_, fun c hcx => ?_, fun c hcb => ?_⟩, ?_⟩
    · by_cases hcb : c = b
      · subst hcb; rw [Function.update_self]
      · rw [Function.update_of_ne hcb]
    · refine Function.update_of_ne ?_ _ _
      rintro rfl
      exact hcx hx
    · obtain rfl : b = c := Option.some.inj (hc.symm.trans hcb)
      exact Function.update_self _ _ _
    · simp only [Drafting.finish, bind, StateT.bind, get, getThe, MonadStateOf.get, StateT.get,
        pure, Except.pure, Except.bind, hc, Build.ret, build_ok hret]
      cases d.labels.find? (!·.defined) <;> rfl

theorem Notes.defined_iff {done : List Stmt} (h : d.Notes done)
    (hn : (d.labels.map LabelEntry.name).Nodup) :
    (∀ e ∈ d.labels, e.defined = true) ↔ ∀ name ∈ done.flatMap Stmt.uses,
      name ∈ done.filterMap Stmt.defines? := by
  constructor
  · intro hd name hu
    obtain ⟨e, he, rfl⟩ := (h.met name).mpr (.inr hu)
    exact (h.defined e.name).mp ⟨e, he, rfl, hd e he⟩
  · intro hu e he
    have hdef : e.name ∈ done.filterMap Stmt.defines? := by
      rcases (h.met e.name).mp ⟨e, he, rfl⟩ with hm | hm
      · exact hm
      · exact hu _ hm
    obtain ⟨e', he', hn', hd⟩ := (h.defined e.name).mpr hdef
    rwa [List.inj_on_of_nodup_map hn he' he hn'] at hd

/-- Drafting ends well if all labels are defined. -/
theorem Inv.finish_ok (h : d.Inv sk) (hl : ∀ e ∈ d.labels, e.defined = true) :
    ∃ d' sk', Closes d sk d' sk' ∧ (Drafting.finish d).map (·.2.routine) = .ok d'.routine := by
  obtain ⟨d', sk', hc, he⟩ := h.finish_eq
  have hfind : d.labels.find? (!·.defined) = none := by
    rw [List.find?_eq_none]; exact fun e he => by simp [hl e he]
  rw [hfind] at he
  exact ⟨d', sk', hc, he⟩

/-- Otherwise a label is reported. -/
theorem Inv.finish_error (h : d.Inv sk) (hl : ¬ ∀ e ∈ d.labels, e.defined = true) :
    ∃ pos name, (Drafting.finish d).map (·.2.routine) = .error (.undefinedLabel pos name) := by
  obtain ⟨d', -, -, he⟩ := h.finish_eq
  obtain ⟨e, hfind⟩ : ∃ e, d.labels.find? (!·.defined) = some e := by
    rw [← Option.isSome_iff_exists, List.find?_isSome]
    simpa using hl
  rw [hfind] at he
  exact ⟨_, _, he⟩

end Draft

/-! ## Outcomes -/

/-- The routine of a drafted procedure: it is ready for lowering and was built from the listings of
a plan that the body follows. -/
structure Planned (table : ForeignTable) (x : ProcDecl) (f : Routine) (slots : List Slot)
    (P : Plan) : Prop where
  ready : f.Ready
  route : f.route = 1
  renders : ∀ b, Block.Renders f.Owns (f.block b) (P.sketch b)
  follows : P.Follows x.body (some { block := 1, index := 0 })
  slots : slots = x.args.map fun a => { var := P.var a.name.name, size := a.size }
  args : ∀ a ∈ x.args, a.name.name ∈ P.names
  func : ∀ name i, table.lookup? name = some i → P.func name = i

namespace ProcDecl

open Draft

variable {table : ForeignTable} {x : ProcDecl}

/-- The plan of a finished draft. -/
def planOf (table : ForeignTable) (d : Draft) (sk : BlockId → Listing Var) : Plan where
  sketch := sk
  names := d.routine.vars.toList
  block name := (d.blockAt? name).getD entry
  func name := (((table.lookup? name).getD 0 : Nat) : FuncId)

/-- Up to the body, drafting cannot fail. -/
theorem exists_start (table : ForeignTable) (x : ProcDecl) :
    ∃ d slots, d.Inv (fun _ => {}) ∧ d.Notes [] ∧
    d.current = some 1 ∧ (∀ a ∈ x.args, a.name.name ∈ d.routine.vars.toList) ∧
    slots = (x.args.map fun a => { var := d.varAt a.name.name, size := a.size }) ∧
    x.draft table = ((x.body.forM (Drafting.statement table)) d).bind fun r =>
      ((Drafting.finish r.2).map (·.2.routine)).map (·, slots) := by
  obtain ⟨d, hblank, -, hargs, hm⟩ := args_eq x.args (blank_new x.name.name)
  refine ⟨_, _, hblank.open, hblank.notes _, rfl, hargs, rfl, ?_⟩
  have hcreate : Drafting.build Build.createBlock d =
      .ok (1, { d with routine := d.routine.pushBlock {} }) :=
    build_ok (by rw [← hblank.size]; rfl)
  have hdraft : x.drafting table { routine := .new x.name.name } =
      ((x.body.forM (Drafting.statement table))
        { d with routine := d.routine.pushBlock {}, current := some 1 }).bind
        fun r => (Drafting.finish r.2).bind fun r' =>
          .ok (x.args.map fun a => { var := d.varAt a.name.name, size := a.size }, r'.2) := by
    show ((x.args.mapM fun a => return { var := ← Drafting.varOf a.name.name, size := a.size } :
      Drafting (List Slot)) { routine := .new x.name.name }).bind _ = _
    rw [hm]
    simp only [bind, StateT.bind, Except.bind, hcreate]
    rfl
  show (x.drafting table { routine := .new x.name.name }).bind _ = _
  rw [hdraft]
  cases (x.body.forM (Drafting.statement table))
    { d with routine := d.routine.pushBlock {}, current := some 1 } with
  | error e => rfl
  | ok r =>
    show ((Drafting.finish r.2).bind _).bind _ = ((Drafting.finish r.2).map _).map _
    cases Drafting.finish r.2 <;> rfl

/-- Drafting succeeds on admitted statements with defined labels. -/
theorem draft_ok (ha : Stmt.Admitted table [] x.body) (hl : Stmt.LabelsDefined x.body) :
    ∃ f slots P, x.draft table = .ok (f, slots) ∧ Planned table x f slots P := by
  obtain ⟨d, slots, h, hn, hcur, hargs, hslots, hdraft⟩ := x.exists_start table
  obtain ⟨d₁, sk₁, hbody, h₁, hn₁, hall⟩ := h.body_ok hn ha
  have hdef := (hn₁.defined_iff h₁.names).mpr hl
  obtain ⟨d₂, sk₂, hc, hfin⟩ := h₁.finish_ok hdef
  have hext : (planOf table d₂ sk₂).Extends table d₁ sk₁ := {
    var := fun name hm =>
    ⟨by rw [planOf, hc.vars]; exact hm, by rw [planOf, Plan.var, hc.vars]; rfl⟩
    block := fun name b hb => by simp [planOf, blockAt?_congr hc.labels, hb]
    func := fun name i hi => by simp [planOf, hi]
    body := hc.body
    closed := hc.closed }
  have hend : ∀ q ∈ Plan.point d₁ sk₁, (planOf table d₂ sk₂).Leaves q .ret := by
    intro q hq
    obtain ⟨b, hb, rfl⟩ := Option.map_eq_some_iff.mp hq
    exact ⟨congrArg (·.body.length) (hc.ends b hb), congrArg Listing.exit (hc.ends b hb)⟩
  obtain ⟨hfollows, hstart⟩ := Plan.follows_of_draftedAll hall hext hend
  rw [Plan.point_of_current hcur] at hfollows
  refine ⟨d₂.routine, slots, planOf table d₂ sk₂, ?_, ?_⟩
  · rw [hdraft, hbody]
    show ((Drafting.finish d₁).map _).map _ = _
    rw [hfin]
    rfl
  · exact {
      ready := hc.inv.ready hc.current (by rw [hc.labels]; exact hdef)
      route := hc.inv.growing.route
      renders := hc.inv.renders
      follows := hfollows
      slots := by
        rw [hslots]
        exact List.map_congr_left fun a ha => by rw [(hstart.var _ (hargs a ha)).2]
      args := fun a ha => (hstart.var _ (hargs a ha)).1
      func := hext.func }

/-- Drafting refuses all other procedures without unknown statements, with an error of the user. -/
theorem draft_error (hk : ∀ s ∈ x.body, s ≠ .unknown)
    (hx : ¬ (Stmt.Admitted table [] x.body ∧ Stmt.LabelsDefined x.body)) :
    ∃ e, x.draft table = .error e ∧ e.isInternal = false := by
  obtain ⟨d, slots, h, hn, -, -, -, hdraft⟩ := x.exists_start table
  by_cases ha : Stmt.Admitted table [] x.body
  · obtain ⟨d₁, sk₁, hbody, h₁, hn₁, -⟩ := h.body_ok hn ha
    obtain ⟨pos, name, hfin⟩ := h₁.finish_error fun hdef =>
      hx ⟨ha, (hn₁.defined_iff h₁.names).mp hdef⟩
    refine ⟨.undefinedLabel pos name, ?_, rfl⟩
    rw [hdraft, hbody]
    show ((Drafting.finish d₁).map _).map _ = _
    rw [hfin]
    rfl
  · obtain ⟨e, he, hi⟩ := h.body_error hn hk ha
    exact ⟨e, by rw [hdraft, he]; rfl, hi⟩

end ProcDecl

end ProcCompiler
