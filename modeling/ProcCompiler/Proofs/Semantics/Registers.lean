import ProcCompiler.Proofs.Lowering.Settled
import ProcCompiler.Proofs.Semantics.Detours
/-!
# From variables to registers

The blocks of a settled routine do for registers what its listings do for variables. At every point
each variable that will be read stands in a register; since a register belongs to one variable,
writing another variable does not overwrite it, and a block finds what comes into it where its
predecessor left it.

* `Settled.carries`: what each block of the settled routine does.
* `Settled.follows_registers`: the registers follow the variables.
-/
namespace ProcCompiler

open Machine

/-! ## Blocks -/

namespace Block

/-- From variables that stand at `loc`, the block does for registers what the listing does for
variables. -/
structure Carries (own : Reg → Var → Prop) (loc : Var → Ref) (b : Block) (s : Listing Var) :
    Prop where
  body : Traced own loc b.bodyRefs s.body b.located
  exit : b.exitRef = s.exit.map (·.mapRead b.located)

end Block

/-- Filling keeps track of the variables. -/
theorem Traced.fill {own : Reg → Var → Prop} {loc loc' : Var → Ref} {as : List (Action Reg Ref)}
    {ss : List (Action Var Var)} (h : Traced own loc as ss loc') (σ : Var → Option Reg) :
    Traced own (Ref.fill σ ∘ loc) (as.map (·.mapRead (Ref.fill σ))) ss (Ref.fill σ ∘ loc') := by
  induction h with
  | nil => exact .nil
  | @step loc loc' as ss a w r hw hr _ ih =>
    have hhead : ((a.mapRead loc).mapWrite fun _ => r).mapRead (Ref.fill σ) =
        (a.mapRead (Ref.fill σ ∘ loc)).mapWrite fun _ => r := by cases a <;> rfl
    have hloc : Ref.fill σ ∘ Function.update loc w (.reg r) =
        Function.update (Ref.fill σ ∘ loc) w (.reg r) := by
      funext v
      by_cases hv : v = w
      · subst hv; simp [Ref.fill]
      · simp [Function.update_of_ne hv]
    rw [List.map_cons, hhead]
    rw [hloc] at ih
    exact .step hw hr ih

namespace Block

variable {own own' : Reg → Var → Prop} {loc : Var → Ref} {b b' : Block} {s : Listing Var}

theorem Renders.carries (h : Renders own b s) (ho : ∀ r v, own r v → own' r v) :
    Carries own' .var b s :=
  ⟨h.body.mono ho, h.exit⟩

theorem Filled.located {σ : Var → Option Reg} (h : Filled b b' σ) :
    b'.located = Ref.fill σ ∘ b.located := by
  funext v
  simp only [Block.located, h.binding v, Function.comp]
  cases b.binding? v with
  | some r => rfl
  | none => cases hσ : σ v <;> simp [Ref.fill, hσ]

/-- What arrived in a block was there from its start. -/
theorem Carries.filled (h : Carries own .var b s) {σ : Var → Option Reg} (hf : Filled b b' σ) :
    Carries own (fun v => (Ref.var v).fill σ) b' s where
  body := by
    rw [hf.body, hf.located]
    exact h.body.fill σ
  exit := by
    rw [hf.exit, h.exit, hf.located, Option.map_map]
    congr 1
    funext e
    exact Exit.mapRead_mapRead _ _ e

theorem Carries.mapLabel (h : Carries own loc b s) (g : Label → Label) :
    Carries own loc (b.mapLabel g) { s with exit := s.exit.map (·.mapLabel g) } where
  body := h.body
  exit := by
    have hcomm : ∀ {ρ ρ' : Type} (k : ρ → ρ') (o : Option (Exit ρ Label)),
        (o.map (·.mapLabel g)).map (·.mapRead k) = (o.map (·.mapRead k)).map (·.mapLabel g) := by
      intro ρ ρ' k o
      cases o with
      | none => rfl
      | some e => exact congrArg some (Exit.mapRead_mapLabel k g e)
    show (b.exit.map (·.mapLabel g)).map (·.mapRead (Operand.ref b.params)) =
      (s.exit.map (·.mapLabel g)).map (·.mapRead b.located)
    rw [hcomm, hcomm, ← h.exit, exitRef]

end Block

/-- Copies of distinct variables into registers of their own. -/
theorem traced_moves {own : Reg → Var → Prop} {shared : Var → Reg} {vs : List Var} {loc : Var → Ref}
    (hn : vs.Nodup) (ho : ∀ v ∈ vs, own (shared v) v) :
    Traced own loc (vs.map fun v => .move (shared v) (loc v)) (vs.map fun v => .move v v)
      fun v => if v ∈ vs then .reg (shared v) else loc v := by
  induction vs generalizing loc with
  | nil => simpa using Traced.nil
  | cons v vs ih =>
    obtain ⟨hv, hn⟩ := List.nodup_cons.mp hn
    have hne : ∀ u ∈ vs, Function.update loc v (.reg (shared v)) u = loc u := fun u hu =>
      Function.update_of_ne (by rintro rfl; exact hv hu) _ _
    have hmap : (vs.map fun u => (Action.move (shared u) (loc u) : Action Reg Ref)) =
        vs.map fun u => .move (shared u) (Function.update loc v (.reg (shared v)) u) :=
      List.map_congr_left fun u hu => by rw [hne u hu]
    have hend : (fun u => if u ∈ v :: vs then Ref.reg (shared u) else loc u) =
        fun u => if u ∈ vs then Ref.reg (shared u)
          else Function.update loc v (.reg (shared v)) u := by
      funext u
      by_cases hu : u = v
      · subst hu; simp
      · simp [hu]
    rw [List.map_cons, List.map_cons, hmap, hend]
    have hhead : Action.move (shared v) (loc v) =
        ((Action.move v v).mapRead loc).mapWrite fun _ => shared v := rfl
    rw [hhead]
    exact .step rfl (ho v (by simp)) (ih hn fun u hu => ho u (by simp [hu]))

theorem bodyRefs_edgeBlock (vs : List Var) (shared : Var → Reg) (t : BlockId) :
    (edgeBlock vs (vs.map shared) t).bodyRefs = vs.map fun v => .move (shared v) (.var v) := by
  unfold Block.bodyRefs edgeBlock
  apply List.ext_getElem
  · simp
  · intro i hi hi'
    have hlt : i < vs.length := by simpa using hi'
    simp [Action.mapRead, Operand.ref, hlt]

/-- The block of an edge copies each variable into the register that the edges share. -/
theorem carries_edgeBlock {own : Reg → Var → Prop} {vs : List Var} (hn : vs.Nodup)
    {shared : Var → Reg} (hown : ∀ v ∈ vs, own (shared v) v) (t : BlockId) :
    Block.Carries own .var (edgeBlock vs (vs.map shared) t) (edgeListing vs t) where
  body := by
    have hloc : (edgeBlock vs (vs.map shared) t).located = fun v => if v ∈ vs then .reg (shared v)
        else .var v := by
      funext v
      rw [Block.located, binding?_edgeBlock hn]
      split <;> simp_all
    rw [bodyRefs_edgeBlock, hloc]
    exact traced_moves hn hown
  exit := rfl

/-! ## The settled routine -/

/-- Where the variables stand at the start of a block: in the registers that came in, and at the
entry in those of the arguments. -/
def startPlace (F : Routine) (into : BlockId → Var → Option Reg) (b : BlockId) : Var → Ref :=
  if b = entry then (F.block entry).located else fun v => (Ref.var v).fill (into b)

theorem Block.located_cases (b : Block) (v : Var) :
    b.located v = .var v ∨ ∃ r, b.located v = .reg r := by
  unfold located
  cases b.binding? v with
  | none => exact .inl rfl
  | some r => exact .inr ⟨r, rfl⟩

/-- At the start of a block a variable stands in a register, or nowhere yet. -/
theorem startPlace_cases (F : Routine) (into : BlockId → Var → Option Reg) (b : BlockId) (v : Var) :
    startPlace F into b v = .var v ∨ ∃ r, startPlace F into b v = .reg r := by
  unfold startPlace
  split
  · exact Block.located_cases _ v
  · cases hi : into b v with
    | none => exact .inl (by simp [Ref.fill, hi])
    | some r => exact .inr ⟨r, by simp [Ref.fill, hi]⟩

theorem Routine.owns_natCast {f : Routine} {k : Nat} {v : Var} :
    f.Owns (k : Reg) v ↔ (f.regs.toList[k]?).map RegInfo.var = some v := by
  show (f.regs[k]?).map RegInfo.var = some v ↔ _
  rw [Array.getElem?_toList]

/-- A register belongs to one variable. -/
theorem Routine.Owns.inj {f : Routine} {r : Reg} {v w : Var} (h : f.Owns r v) (h' : f.Owns r w) :
    v = w :=
  Option.some.inj (h.symm.trans h')

/-- Registers keep their variables when more are added. -/
theorem Routine.Owns.of_prefix {f f' : Routine} (h : f.regs.toList <+: f'.regs.toList) {r : Reg}
    {v : Var} (hr : f.Owns r v) : f'.Owns r v := by
  cases r with
  | negSucc k => cases hr
  | ofNat k =>
    obtain ⟨info, hi, rfl⟩ := Option.map_eq_some_iff.mp (owns_natCast.mp hr)
    refine owns_natCast.mpr ?_
    obtain ⟨more, hm⟩ := h
    rw [← hm, List.getElem?_append_left (List.getElem?_eq_some_iff.mp hi).1, hi]
    rfl

namespace Settled

variable {f f₂ F : Routine} {n : Needs} {slots : List Slot} {into : BlockId → Var → Option Reg}
  (h : Settled f n slots into f₂ F)

include h

theorem owns_old {r : Reg} {v : Var} (hr : f.Owns r v) : F.Owns r v :=
  hr.of_prefix ⟨_, by rw [h.regs, List.append_assoc]⟩

theorem owns_shared {t : BlockId} {v : Var} (hv : ⟨t, v⟩ ∈ f.sites n) :
    F.Owns (f.shared n t v) v := by
  have hlt := List.idxOf_lt_length_iff.mpr hv
  have hidx : ((f.sites n).map fun s => ({ var := s.var } : RegInfo))[(f.sites n).idxOf ⟨t, v⟩]? =
      some { var := v } := by
    rw [List.getElem?_map, List.getElem?_eq_getElem hlt, List.getElem_idxOf]
    rfl
  show F.Owns ((f.regs.size + (f.sites n).idxOf ⟨t, v⟩ : Nat) : Reg) v
  rw [Routine.owns_natCast, h.regs, List.getElem?_append_left (by simpa using hlt),
    List.getElem?_append_right (by simp), Array.length_toList, Nat.add_sub_cancel_left, hidx]
  rfl

/-- What each block of the settled routine does. -/
theorem carries {sk : BlockId → Listing Var} (hs : Sketched f sk) {b : BlockId}
    (hb : b ∈ f₂.graph.order) :
    (F.block b).Carries F.Owns (startPlace F into b) (f.splitSketch n sk b) := by
  have h0 : 0 < f.blocks.size := h.split.entry_lt
  rcases h.kinds hb with rfl | ⟨ho, hne⟩ | ⟨e, he, rfl⟩
  · have hopen : (f.block entry).isComplete = false := by
      simp [Block.isComplete, h.ready.bare.isOpen]
    have hroute : (f₂.route : Label) = f.viaLabel n entry f.route := by
      rw [h.split.split.route, hopen]
      rfl
    have hsk : f.splitSketch n sk entry = { exit := some (.jump (f.viaLabel n entry f.route)) } :=
      if_pos rfl
    rw [startPlace, if_pos rfl, hsk]
    refine ⟨?_, ?_⟩
    · rw [Block.bodyRefs, h.entryBody]
      exact .nil
    · rw [Block.exitRef_eq_jump.mpr h.entryExit, hroute]
      rfl
  · rw [startPlace, if_neg hne, f.splitSketch_old n sk hne (h.split.closed.lt_of_mem_order ho)]
    exact (((hs.renders b).carries fun r v => h.owns_old).mapLabel _).filled (h.old b ho hne)
  · have hne : f.edgeId n e ≠ entry := Nat.ne_of_gt (Nat.lt_of_lt_of_le h0 (le_edgeId f n e))
    rw [startPlace, if_neg hne, Routine.splitSketch_edge h0 he]
    refine (carries_edgeBlock ?_ (fun v hv => h.owns_shared ?_) e.target).filled (h.edge e he)
    · exact Needs.nodup_of (Routine.nodup_sites h.split.needs) _
    · exact h.split.split.sited e.target (.inr ⟨e, he, rfl⟩) v hv

end Settled

/-! ## Following the variables -/

/-- The code of a block over registers. -/
def Routine.listing (f : Routine) (b : BlockId) : Listing Reg where
  body := (f.block b).body.map (·.mapRead Operand.regIndex)
  exit := (f.block b).exit.map (·.mapRead Operand.regIndex)

theorem of_drop_eq_cons {α : Type} {l l' : List α} {i : Nat} {a : α} (h : l.drop i = a :: l') :
    l[i]? = some a ∧ l.drop (i + 1) = l' := by
  refine ⟨?_, by rw [← List.drop_drop, h, List.drop_one, List.tail_cons]⟩
  have := congrArg (·[0]?) h
  simpa using this

namespace Traced

variable {own : Reg → Var → Prop} {loc loc' : Var → Ref} {as : List (Action Reg Ref)}
  {ss : List (Action Var Var)} {i : Nat} (h : Traced own loc (as.drop i) (ss.drop i) loc')

include h

/-- The action at a point, and what is to come after it. -/
theorem action {a : Action Var Var} (ha : ss[i]? = some a) : ∃ w r, a.write? = some w ∧ own r w ∧
    as[i]? = some ((a.mapRead loc).mapWrite fun _ => r) ∧
    Traced own (Function.update loc w (.reg r)) (as.drop (i + 1)) (ss.drop (i + 1)) loc' := by
  obtain ⟨hlt, hget⟩ := List.getElem?_eq_some_iff.mp ha
  rw [List.drop_eq_getElem_cons hlt, hget] at h
  generalize hd : as.drop i = ds at h
  cases h with
  | @step _ _ as' _ _ w r hw hr hrest =>
    obtain ⟨hhead, rfl⟩ := of_drop_eq_cons hd
    exact ⟨w, r, hw, hr, hhead, hrest⟩

/-- At the end of a body nothing is to come. -/
theorem done (ha : ss[i]? = none) : as[i]? = none ∧ loc' = loc := by
  rw [List.drop_eq_nil_of_le (List.getElem?_eq_none_iff.mp ha)] at h
  generalize hd : as.drop i = ds at h
  cases h with
  | nil => exact ⟨List.getElem?_eq_none_iff.mpr (List.drop_eq_nil_iff.mp hd), rfl⟩

end Traced

/-- A known operand that refers to a variable or a register is the register. -/
theorem Operand.ref_known {o : Operand} (hk : o.known?.isSome) {ps : List Var} {v : Var} {x : Ref}
    (hx : x = .var v ∨ ∃ r, x = .reg r) (hr : o.ref ps = x) : x = .reg o.regIndex := by
  rcases hx with rfl | ⟨r, rfl⟩
  · cases o with
    | param i => cases hk
    | _ => cases hr
  · cases o with
    | reg s => cases hr; rfl
    | param i => cases hk
    | stray k => cases hr

/-- An action that writes also reads. -/
theorem Action.exists_read {a : Action Var Var} {w : Var} (hw : a.write? = some w) :
    ∃ v, a.read? = some v := by
  cases a with
  | unknown code => cases hw
  | _ => exact ⟨_, rfl⟩

/-- An action that carries one on variables, when its operand is known. -/
theorem Action.carried {loc : Var → Ref} (hloc : ∀ v, loc v = .var v ∨ ∃ r, loc v = .reg r)
    {ps : List Var} {x : Action Reg Operand} {a : Action Var Var} {r : Reg} {v : Var}
    (hk : ∀ o, x.read? = some o → o.known?.isSome) (hv : a.read? = some v)
    (hx : x.mapRead (Operand.ref ps) = (a.mapRead loc).mapWrite fun _ => r) :
    ∃ r', loc v = .reg r' ∧ x.mapRead Operand.regIndex = (a.mapRead fun _ => r').mapWrite fun _ =>
      r := by
  cases a with
  | move dst src =>
    cases x with
    | move out o =>
      cases hv
      simp only [Action.mapRead, Action.mapWrite, Action.move.injEq] at hx
      obtain ⟨rfl, ho⟩ := hx
      exact ⟨_, Operand.ref_known (hk o rfl) (hloc _) ho, rfl⟩
    | call fn out o => cases hx
    | unknown code => cases hx
  | call fn out arg =>
    cases x with
    | move out o => cases hx
    | call fn' out' o =>
      cases hv
      simp only [Action.mapRead, Action.mapWrite, Action.call.injEq] at hx
      obtain ⟨rfl, rfl, ho⟩ := hx
      exact ⟨_, Operand.ref_known (hk o rfl) (hloc _) ho, rfl⟩
    | unknown code => cases hx
  | unknown code => cases hv

section

variable {V W : Type} {own : Reg → Var → Prop} {loc : Var → Ref} {vars : Var → V} {regs : Reg → V}

/-- Each variable has its value in a register of its own, or stands nowhere yet. -/
structure Placed (own : Reg → Var → Prop) (loc : Var → Ref) (vars : Var → V) (regs : Reg → V) :
    Prop where
  place : ∀ v, loc v = .var v ∨ ∃ r, loc v = .reg r
  own : ∀ v r, loc v = .reg r → own r v
  value : ∀ v r, loc v = .reg r → regs r = vars v

/-- A write to a variable overwrites no other. -/
theorem Placed.update (h : Placed own loc vars regs) (hinj : ∀ r v w, own r v → own r w → v = w)
    {w : Var} {r : Reg} (hr : own r w) (x : V) :
    Placed own (Function.update loc w (.reg r)) (Function.update vars w x)
      (Function.update regs r x) := by
  refine ⟨fun v => ?_, fun v s hs => ?_, fun v s hs => ?_⟩
  · by_cases hv : v = w
    · subst hv; exact .inr ⟨r, Function.update_self ..⟩
    · rw [Function.update_of_ne hv]; exact h.place v
  · by_cases hv : v = w
    · subst hv; rw [Function.update_self] at hs; cases hs; exact hr
    · rw [Function.update_of_ne hv] at hs; exact h.own v s hs
  · by_cases hv : v = w
    · subst hv; rw [Function.update_self] at hs; cases hs; simp
    · rw [Function.update_of_ne hv] at hs
      have hne : s ≠ r := by rintro rfl; exact hv (hinj _ _ _ (h.own v _ hs) hr)
      rw [Function.update_of_ne hne, Function.update_of_ne hv, h.value v s hs]

/-- A known operand for a variable is the register that the variable stands in. -/
theorem Placed.known (h : Placed own loc vars regs) {o : Operand} (hk : o.known?.isSome)
    {ps : List Var} {v : Var} (hr : o.ref ps = loc v) : loc v = .reg o.regIndex :=
  Operand.ref_known hk (h.place v) hr

/-- An exit whose operand is known leads where it does for variables. -/
theorem Placed.follow (h : Placed own loc vars regs) {ps : List Var} {x : Exit Operand Label}
    {e : Exit Var Label} (I : Interp V W) (hk : ∀ o, x.read? = some o → o.known?.isSome)
    (hx : x.mapRead (Operand.ref ps) = e.mapRead loc) :
    (x.mapRead Operand.regIndex).follow I regs = e.follow I vars := by
  cases e with
  | jump t => cases x <;> cases hx; rfl
  | branch c t u =>
    cases x with
    | branch o t' u' =>
      simp only [Exit.mapRead, Exit.branch.injEq] at hx
      obtain ⟨ho, rfl, rfl⟩ := hx
      simp only [Exit.mapRead, Exit.follow, h.value c _ (h.known (hk o rfl) ho)]
    | jump t => cases hx
    | ret => cases hx
  | ret => cases x <;> cases hx; rfl

end

/-- Both machines are at one point of a reached block, and each variable stands in its register. -/
structure Tracks {V W : Type} (f₂ F : Routine) (blocks : BlockId → Listing Var)
    (a : BlockState Var V W) (c : BlockState Reg V W) : Prop where
  point : c.point = a.point
  world : c.store.world = a.store.world
  reached : a.point.block ∈ f₂.graph.order
  placed : ∃ loc, Traced F.Owns loc ((F.block a.point.block).bodyRefs.drop a.point.index)
      ((blocks a.point.block).body.drop a.point.index) (F.block a.point.block).located ∧
    Placed F.Owns loc a.store.mem c.store.mem

namespace Settled

variable {f f₂ F : Routine} {n : Needs} {slots : List Slot} {into : BlockId → Var → Option Reg}
  (h : Settled f n slots into f₂ F) {sk : BlockId → Listing Var} {V W : Type}

include h

/-- The labels of an exit name successors. -/
theorem exists_succ {b : BlockId} (hb : b ∈ f₂.graph.order) {e : Exit Operand Label}
    (he : (F.block b).exit = some e) {l : Label} (hl : l ∈ e.labels) :
    ∃ t : BlockId, l = t ∧ t ∈ f₂.graph.succs b ∧ t ∈ f₂.graph.order ∧ t ≠ entry := by
  obtain ⟨e', he', hlabels⟩ := h.exit_leads hb
  cases he.symm.trans he'
  rw [hlabels] at hl
  exact h.split.closed'.exists_succ hb hl

/-- What a block starts with is where its predecessor left it. -/
theorem located_of_startPlace {b t : BlockId} (ht : b ∈ f₂.graph.preds t) (h0 : t ≠ entry) {v : Var}
    {r : Reg} (hr : startPlace F into t v = .reg r) : (F.block b).located v = .reg r := by
  rw [startPlace, if_neg h0] at hr
  cases hi : into t v with
  | none => simp [Ref.fill, hi] at hr
  | some s =>
    simp only [Ref.fill, hi, Ref.reg.injEq] at hr
    rw [Block.located, h.flows t b ht v s hi, hr]

/-- At the entry a variable stands in its argument register, if it is needed. -/
theorem mem_of_startPlace_entry {v : Var} {r : Reg} (hr : startPlace F into entry v = .reg r) :
    v ∈ n.of entry ∧ r = ((f₂.regs.size + (n.of entry).idxOf v : Nat) : Reg) := by
  rw [startPlace, if_pos rfl, Block.located, h.entryBinding] at hr
  by_cases hv : v ∈ n.of entry
  · rw [if_pos hv] at hr
    cases hr
    exact ⟨hv, rfl⟩
  · rw [if_neg hv] at hr
    cases hr

/-- At the start of a block the variables stand where the predecessor left them. -/
theorem placed_start {b t : BlockId} {vars : Var → V} {regs : Reg → V}
    (hp : Placed F.Owns (F.block b).located vars regs) (ht : b ∈ f₂.graph.preds t)
    (h0 : t ≠ entry) :
    Placed F.Owns (startPlace F into t) vars regs where
  place := startPlace_cases F into t
  own v r hr := hp.own v r (h.located_of_startPlace ht h0 hr)
  value v r hr := hp.value v r (h.located_of_startPlace ht h0 hr)

/-- At the entry the variables that are needed stand in the argument registers. -/
theorem placed_entry {vars : Var → V} {regs : Reg → V}
    (hregs : ∀ v ∈ n.of entry, regs ((f₂.regs.size + (n.of entry).idxOf v : Nat) : Reg) = vars v) :
    Placed F.Owns (startPlace F into entry) vars regs := by
  refine ⟨startPlace_cases F into entry, fun v r hr => ?_, fun v r hr => ?_⟩
  · obtain ⟨hv, rfl⟩ := h.mem_of_startPlace_entry hr
    rw [Routine.owns_natCast, h.regs_entry hv]
    rfl
  · obtain ⟨hv, rfl⟩ := h.mem_of_startPlace_entry hr
    exact hregs v hv

/-- The start of a block. -/
theorem tracks_start (hs : Sketched f sk) {b : BlockId} (hb : b ∈ f₂.graph.order)
    {s : Store Var V W} {t : Store Reg V W} (hw : t.world = s.world)
    (hp : Placed F.Owns (startPlace F into b) s.mem t.mem) :
    Tracks f₂ F (f.splitSketch n sk) ⟨{ block := b, index := 0 }, s⟩
      ⟨{ block := b, index := 0 }, t⟩ :=
  ⟨rfl, hw, hb, _, (h.carries hs hb).body, hp⟩

/-- The registers follow the variables. -/
theorem follows_registers (hs : Sketched f sk) (I : Interp V W) (fnName : FuncId → String) :
    (blockMachine I fnName (f.splitSketch n sk)).Follows (blockMachine I fnName F.listing)
      (Tracks f₂ F (f.splitSketch n sk)) fun _ => 0 := by
  rintro ⟨q, s⟩ ⟨q', t⟩ ⟨hpoint, hworld, hb, loc, htr, hp⟩
  cases hpoint
  cases ha : (f.splitSketch n sk q.block).body[q.index]? with
  | some a =>
    obtain ⟨w, r, hw, hown, href, hrest⟩ := htr.action ha
    obtain ⟨v, hv⟩ := Action.exists_read hw
    rw [Block.bodyRefs, List.getElem?_map, Option.map_eq_some_iff] at href
    obtain ⟨x, hx, hxref⟩ := href
    obtain ⟨r', hr', hxa⟩ :=
      Action.carried hp.place ((h.known hb).body x (List.mem_of_getElem? hx)) hv hxref
    have hlist : (F.listing q.block).body[q.index]? =
        some ((a.mapRead fun _ => r').mapWrite fun _ => r) := by
      rw [Routine.listing, List.getElem?_map, hx, Option.map_some, hxa]
    obtain ⟨event, value, world, hs', ht'⟩ :=
      Action.exec_rename (r := r) I fnName hv hw (hp.value v r' hr') hworld
    refine answers_of_step (blockStep_action ha hs') (blockStep_action hlist ht')
      ⟨rfl, rfl, hb, _, hrest, ?_⟩
    exact hp.update (fun _ _ _ => Routine.Owns.inj) hown value
  | none =>
    obtain ⟨hdone, rfl⟩ := htr.done ha
    obtain ⟨x, hx, -⟩ := h.exit_leads hb
    have href := (h.carries hs hb).exit
    rw [Block.exitRef, hx] at href
    obtain ⟨e, he, hex⟩ := Option.map_eq_some_iff.mp href.symm
    have hfollow := hp.follow I ((h.known hb).exit x hx) hex.symm
    have hnone : (F.listing q.block).body[q.index]? = none := by
      rw [Block.bodyRefs, List.getElem?_map, Option.map_eq_none_iff] at hdone
      rw [Routine.listing, List.getElem?_map, hdone, Option.map_none]
    have hstep : (blockMachine I fnName (f.splitSketch n sk)).step ⟨q, s⟩ = leaveBlock I s e :=
      blockStep_exit ha he
    have hstep' : (blockMachine I fnName F.listing).step ⟨q, t⟩ =
        leaveBlock I t (x.mapRead Operand.regIndex) :=
      blockStep_exit hnone (by rw [Routine.listing, hx]; rfl)
    cases hl : e.follow I s.mem with
    | none =>
      rw [hl] at hfollow
      exact answers_of_halt (by rw [hstep, leaveBlock, hl])
        (by rw [hstep', leaveBlock, hfollow]) hworld
    | some l =>
      rw [hl] at hfollow
      have hlabel : l ∈ x.labels :=
        Exit.labels_mapRead Operand.regIndex x ▸ Exit.follow_mem_labels hfollow
      obtain ⟨u, rfl, hsucc, hu, h0⟩ := h.exists_succ hb hx hlabel
      have hpred := FlowGraph.mem_preds.mpr ⟨hb, hsucc⟩
      exact answers_of_step (by rw [hstep, leaveBlock, hl]) (by rw [hstep', leaveBlock, hfollow])
        (h.tracks_start hs hu hworld (h.placed_start hp hpred h0))

end Settled

end ProcCompiler
