import Mathlib.Data.List.Basic
import ProcCompiler.Lowering
import ProcCompiler.Proofs.Lowering.Transit
/-!
# Lowering does not look at names

The name of a routine and the names of its variables occur in messages only. Each pass of lowering
does the same to a routine under other names, and fails exactly if it fails there. What the message
would say is forgotten: results are compared as options.

* `toOption_foldlM`, `toOption_mapM`, `toOption_forM`: sequences, step by step.
* `Routine.withNames`: a routine under other names.
* `analyze_withNames`, `splitJoins_withNames`, `bound?_withNames`, `deliverAll_withNames`,
  `layout_withNames`: the passes.
* `lowered?_withNames`: all of lowering.
-/
namespace ProcCompiler

/-! ## Results without their messages -/

section

variable {ε ε' α α' β β' σ σ' : Type}

theorem toOption_bind (x : Except ε α) (k : α → Except ε β) :
    (x >>= k).toOption = x.toOption.bind fun a => (k a).toOption := by
  cases x <;> rfl

theorem toOption_mapError (e : ε → ε') (x : Except ε α) : (x.mapError e).toOption = x.toOption := by
  cases x <;> rfl

/-- The next step agrees under a view of what the last one gave. -/
theorem bind_of_view {o : Option α} {o' : Option α'} {φ : α → α'} {k : α → Option β}
    {k' : α' → Option β} (ho : o' = o.map φ) (hk : ∀ a, k' (φ a) = k a) :
    o'.bind k' = o.bind k := by
  subst ho
  cases o with
  | none => rfl
  | some a => exact hk a

/-- The same if the results of the next step agree under a view. -/
theorem bind_view {o : Option α} {o' : Option α'} {φ : α → α'} {χ : β → β'} {k : α → Option β}
    {k' : α' → Option β'} (ho : o' = o.map φ) (hk : ∀ a, k' (φ a) = (k a).map χ) :
    o'.bind k' = (o.bind k).map χ := by
  subst ho
  cases o with
  | none => rfl
  | some a => exact hk a

/-- Steps that agree under a view of the states and items, one after another. -/
theorem toOption_foldlM {step : σ → α → Except ε σ} {step' : σ' → α' → Except ε' σ'} {φ : σ → σ'}
    {ψ : α → α'} (h : ∀ s a, (step' (φ s) (ψ a)).toOption = (step s a).toOption.map φ) (as : List α)
    (s : σ) :
    ((as.map ψ).foldlM step' (φ s)).toOption = (as.foldlM step s).toOption.map φ := by
  induction as generalizing s with
  | nil => rfl
  | cons a as ih =>
    rw [List.map_cons, List.foldlM_cons, List.foldlM_cons, toOption_bind, toOption_bind, h]
    cases step s a with
    | error e => rfl
    | ok s₁ => exact ih s₁

/-- The same over one list of items. -/
theorem toOption_foldlM_state {step : σ → α → Except ε σ} {step' : σ' → α → Except ε' σ'}
    {φ : σ → σ'} (h : ∀ s a, (step' (φ s) a).toOption = (step s a).toOption.map φ) (as : List α)
    (s : σ) :
    (as.foldlM step' (φ s)).toOption = (as.foldlM step s).toOption.map φ := by
  have hsteps := toOption_foldlM (ψ := id) h as s
  rwa [List.map_id] at hsteps

theorem toOption_mapM {x : α → Except ε β} {x' : α → Except ε' β}
    (h : ∀ a, (x' a).toOption = (x a).toOption) (as : List α) :
    (as.mapM x').toOption = (as.mapM x).toOption := by
  induction as with
  | nil => rfl
  | cons a as ih =>
    rw [List.mapM_cons, List.mapM_cons, toOption_bind, toOption_bind, h]
    congr 1
    funext b
    rw [toOption_bind, toOption_bind, ih]
    rfl

theorem toOption_forM {x : α → Except ε Unit} {x' : α → Except ε' Unit}
    (h : ∀ a, (x' a).toOption = (x a).toOption) (as : List α) :
    (as.forM x').toOption = (as.forM x).toOption := by
  induction as with
  | nil => rfl
  | cons a as ih =>
    show (x' a >>= fun _ => as.forM x').toOption = (x a >>= fun _ => as.forM x).toOption
    rw [toOption_bind, toOption_bind, h, ih]

variable {ω ρ ρ' ℓ ℓ' : Type}

theorem Instr.toOption_mapReadM {k k' : ρ → Except ε ρ'} (h : ∀ o, (k' o).toOption = (k o).toOption)
    (x : Instr ω ρ ℓ) : (x.mapReadM k').toOption = (x.mapReadM k).toOption := by
  cases x with
  | action a => cases a <;> simp only [mapReadM, toOption_bind, h]
  | exit e => cases e <;> simp only [mapReadM, toOption_bind, h]

theorem Instr.toOption_mapLabelM {k k' : ℓ → Except ε ℓ'}
    (h : ∀ l, (k' l).toOption = (k l).toOption) (x : Instr ω ρ ℓ) :
    (x.mapLabelM k').toOption = (x.mapLabelM k).toOption := by
  cases x with
  | action a => rfl
  | exit e => cases e <;> simp only [mapLabelM, toOption_bind, h]

end

/-! ## Routines under other names -/

namespace Routine

/-- The routine under another name, its variables under other names. -/
def withNames (name : String) (vars : Array String) (f : Routine) : Routine := { f with name, vars }

variable (name : String) (vars : Array String) (f : Routine)

@[simp] theorem blocks_withNames : (f.withNames name vars).blocks = f.blocks := rfl

@[simp] theorem regs_withNames : (f.withNames name vars).regs = f.regs := rfl

@[simp] theorem route_withNames : (f.withNames name vars).route = f.route := rfl

@[simp] theorem block_withNames (b : BlockId) : (f.withNames name vars).block b = f.block b := rfl

@[simp] theorem find?_withNames (l : Label) : (f.withNames name vars).find? l = f.find? l := rfl

@[simp] theorem modifyBlock_withNames (b : BlockId) (change : Block → Block) :
    (f.withNames name vars).modifyBlock b change = (f.modifyBlock b change).withNames name vars :=
  rfl

@[simp] theorem pushBlock_withNames (x : Block) :
    (f.withNames name vars).pushBlock x = (f.pushBlock x).withNames name vars := rfl

@[simp] theorem pushReg_withNames (r : RegInfo) :
    (f.withNames name vars).pushReg r = (f.pushReg r).withNames name vars := rfl

theorem foldl_withNames {α : Type} {step : Routine → α → Routine}
    (h : ∀ f a, step (f.withNames name vars) a = (step f a).withNames name vars) (as : List α) :
    as.foldl step (f.withNames name vars) = (as.foldl step f).withNames name vars :=
  List.foldl_hom _ h

/-! ## The flow graph and the exit -/

theorem successors_withNames (b : BlockId) :
    ((f.withNames name vars).successors b).toOption = (f.successors b).toOption := by
  have hlabels : ((f.withNames name vars).labels b).toOption = (f.labels b).toOption := by
    rw [labels, labels, block_withNames, route_withNames]
    split
    · rfl
    · split <;> rfl
  have htarget : ∀ l, ((f.withNames name vars).target b l).toOption = (f.target b l).toOption := by
    intro l
    rw [target, target, find?_withNames]
    split
    · split <;> rfl
    · rfl
  rw [successors, successors, toOption_bind, toOption_bind, hlabels]
  congr 1
  funext ls
  exact toOption_mapM htarget ls

theorem analyze_withNames : (f.withNames name vars).analyze.toOption = f.analyze.toOption := by
  rw [analyze, analyze, blocks_withNames]
  split
  · rfl
  · rw [toOption_bind, toOption_bind, toOption_mapM (f.successors_withNames name vars)]

theorem addExit_withNames (g : FlowGraph) :
    (f.withNames name vars).addExit g = ((f.addExit g).1.withNames name vars, (f.addExit g).2) := by
  simp only [addExit, blocks_withNames]
  rw [foldl_withNames name vars f fun _ _ => rfl, pushBlock_withNames]

/-! ## Joins -/

/-- A routine and what goes with it, under other names. -/
def fstWithNames {α : Type} (p : Routine × α) : Routine × α := (p.1.withNames name vars, p.2)

theorem redirect_withNames (jumper old new : BlockId) :
    ((f.withNames name vars).redirect jumper old new).toOption =
    (f.redirect jumper old new).toOption.map (withNames name vars) := by
  rw [redirect, redirect, block_withNames, route_withNames]
  split
  · split <;> rfl
  · rfl

theorem splitEdge_withNames (vs : List Var) (shared : List Reg) (target : BlockId)
    (p : Routine × List BlockId) (jumper : BlockId) :
    (splitEdge vs shared target (fstWithNames name vars p) jumper).toOption =
      (splitEdge vs shared target p jumper).toOption.map (fstWithNames name vars) := by
  obtain ⟨f, edges⟩ := p
  simp only [splitEdge, fstWithNames, toOption_bind, pushBlock_withNames, blocks_withNames]
  exact bind_view (redirect_withNames name vars _ jumper target f.blocks.size) fun _ => rfl

theorem shareRegs_withNames (vs : List Var) :
    (f.withNames name vars).shareRegs vs = fstWithNames name vars (f.shareRegs vs) := by
  rw [shareRegs, foldl_withNames name vars f fun _ _ => rfl]
  rfl

theorem splitJoin_withNames (g : FlowGraph) (n : Needs) (p : Routine × List BlockId)
    (target : BlockId) :
    (splitJoin g n (fstWithNames name vars p) target).toOption =
      (splitJoin g n p target).toOption.map (fstWithNames name vars) := by
  obtain ⟨f, edges⟩ := p
  simp only [splitJoin, fstWithNames, shareRegs_withNames]
  split
  · rfl
  · rw [toOption_bind, toOption_bind]
    exact bind_view
      (toOption_foldlM_state (splitEdge_withNames name vars (n.of target) _ target) (g.preds target)
      ((f.shareRegs (n.of target)).1, edges)) fun _ => rfl

theorem splitJoins_withNames (g : FlowGraph) (n : Needs) :
    ((f.withNames name vars).splitJoins g n).toOption =
    (f.splitJoins g n).toOption.map (fstWithNames name vars) :=
  toOption_foldlM_state (splitJoin_withNames name vars g n) g.order (f, [])

/-! ## Arguments -/

/-- The same variables are missing, whatever they are called. -/
theorem foldl_bindSlot_withNames (slots : List Slot) (vs : List Var)
    (missing missing' : List String) (hm : missing' = [] ↔ missing = []) :
    (vs.foldl (bindSlot slots) (f.withNames name vars, missing')).1 =
        (vs.foldl (bindSlot slots) (f, missing)).1.withNames name vars ∧
      ((vs.foldl (bindSlot slots) (f.withNames name vars, missing')).2 = [] ↔
        (vs.foldl (bindSlot slots) (f, missing)).2 = []) := by
  induction vs generalizing f missing missing' with
  | nil => exact ⟨rfl, hm⟩
  | cons v vs ih =>
    simp only [List.foldl_cons, bindSlot]
    split
    · simp only [pushReg_withNames, modifyBlock_withNames, regs_withNames]
      exact ih _ _ _ hm
    · exact ih f _ _ (by simp)

/-- The routine with its arguments bound, if none is missing. -/
def bound? (f : Routine) (n : Needs) (slots : List Slot) : Option Routine :=
  (f.bindArguments n slots).toOption.bind fun p => if p.2.isSome then none else some p.1

theorem bound?_withNames (n : Needs) (slots : List Slot) :
    (f.withNames name vars).bound? n slots = (f.bound? n slots).map (withNames name vars) := by
  obtain ⟨hf, hm⟩ := f.foldl_bindSlot_withNames name vars slots (n.of entry) [] [] Iff.rfl
  unfold bound? bindArguments
  rw [block_withNames]
  split
  · rfl
  · generalize (n.of entry).foldl (bindSlot slots) (f.withNames name vars, []) = p' at hf hm ⊢
    generalize (n.of entry).foldl (bindSlot slots) (f, []) = p at hf hm ⊢
    obtain ⟨F', M'⟩ := p'
    obtain ⟨F, M⟩ := p
    dsimp only at hf hm
    subst hf
    cases M with
    | nil =>
      obtain rfl := hm.mpr rfl
      rfl
    | cons m M =>
      obtain ⟨m', M', rfl⟩ := List.exists_cons_of_ne_nil (mt hm.mp (List.cons_ne_nil m M))
      rfl

/-! ## The check and delivery -/

theorem checkNeeds_withNames (g : FlowGraph) (n : Needs) :
    ((f.withNames name vars).checkNeeds g n).toOption = (f.checkNeeds g n).toOption := by
  refine toOption_forM (fun b => ?_) g.order
  have hbound : ∀ vs, ((f.withNames name vars).checkBound b vs).toOption =
      (f.checkBound b vs).toOption := by
    intro vs
    simp only [checkBound, block_withNames]
    split <;> rfl
  unfold checkBlock
  dsimp only
  split
  · rfl
  · split
    · split
      · exact hbound _
      · rfl
    · split
      · by_cases hp : (f.block b).params = []
        · rw [if_pos hp, if_pos (show ((f.withNames name vars).block b).params = [] from hp)]
          exact hbound _
        · rw [if_neg hp, if_neg (show ((f.withNames name vars).block b).params ≠ [] from hp)]
          rfl
      · rfl

end Routine

namespace Transit

variable (name : String) (vars : Array String)

def withNames (t : Transit) : Transit := { t with routine := t.routine.withNames name vars }

theorem push_withNames (g : FlowGraph) (t : Transit) (s : Site) :
    ((t.withNames name vars).push g s).toOption = (t.push g s).toOption.map
      (withNames name vars) := by
  have hblock : (t.withNames name vars).routine.block s.block = t.routine.block s.block := rfl
  simp only [push, handOn, hblock]
  cases (t.routine.block s.block).binding? s.var <;> rfl

theorem deliver_withNames (g : FlowGraph) (d : Delivery) (t : Transit) (dest : BlockId) :
    ((t.withNames name vars).deliver g d dest).toOption = (t.deliver g d dest).toOption.map
      (withNames name vars) := by
  by_cases hs : { block := dest, var := d.site.var } ∈ t.waiting
  · rw [deliver, deliver, if_pos hs, if_pos (show _ ∈ (t.withNames name vars).waiting from hs)]
    exact push_withNames name vars g (t.arrive { block := dest, var := d.site.var } d.reg) _
  · rw [deliver, deliver, if_neg hs, if_neg (show _ ∉ (t.withNames name vars).waiting from hs)]
    rw [show (t.withNames name vars).arrived = t.arrived from rfl]
    split
    · rfl
    · split <;> rfl

theorem run_withNames (g : FlowGraph) (t : Transit) :
    (run g (t.withNames name vars)).toOption = (run g t).toOption.map (withNames name vars) := by
  have hround : ∀ (t : Transit) (d : Delivery) (queue : List Delivery),
      ((g.succs d.site.block).foldlM (deliver g d) { t.withNames name vars with queue }).toOption =
        ((g.succs d.site.block).foldlM (deliver g d) { t with queue }).toOption.map
          (withNames name vars) :=
    fun t d queue =>
      toOption_foldlM_state (deliver_withNames name vars g d)
        (g.succs d.site.block) { t with queue }
  fun_induction run g t with
  | case1 t hq =>
    have hq' : (t.withNames name vars).queue = [] := hq
    rw [run_of_nil hq']
    rfl
  | case2 t d queue hq e he =>
    have hq' : (t.withNames name vars).queue = d :: queue := hq
    rw [run_of_cons hq', toOption_bind, hround, he]
    rfl
  | case3 t d queue hq t' ht ih =>
    have hq' : (t.withNames name vars).queue = d :: queue := hq
    rw [run_of_cons hq', toOption_bind, hround, ht]
    exact ih

end Transit

namespace Routine

variable (name : String) (vars : Array String) (f : Routine)

theorem deliverAll_withNames (g : FlowGraph) :
    ((f.withNames name vars).deliverAll g).toOption = (f.deliverAll g).toOption.map
      (withNames name vars) := by
  have hneeds : ((f.withNames name vars).needs g).toOption = (f.needs g).toOption.map id := by
    rw [Option.map_id]
    rfl
  have hfilled : ∀ f : Routine,
      ((f.withNames name vars).checkFilled g).toOption = (f.checkFilled g).toOption.map id := by
    intro f
    rw [Option.map_id]
    refine toOption_forM (fun b => ?_) g.order
    rw [block_withNames]
    split <;> rfl
  simp only [deliverAll, toOption_bind]
  refine bind_view hneeds fun n =>
    bind_view (Transit.run_withNames name vars g (.start f g n)) fun t => ?_
  exact bind_view (hfilled t.routine) fun _ => rfl

/-! ## Layout -/

theorem chunks_withNames (order : List BlockId) :
    (f.withNames name vars).chunks order = f.chunks order := by
  induction order with
  | nil => rfl
  | cons b order ih => rw [chunks, chunks, ih, block_withNames]

theorem resolve_withNames (cs : List Chunk) (p : BlockInstr × Nat) :
    ((f.withNames name vars).resolve cs p.2 p.1).toOption = (f.resolve cs p.2 p.1).toOption := by
  rw [resolve, resolve, toOption_bind, toOption_bind, Instr.toOption_mapReadM fun o => ?_]
  · congr 1
    funext y
    refine Instr.toOption_mapLabelM (fun l => ?_) y
    split <;> rfl
  · cases o <;> rfl

theorem layout_withNames (g : FlowGraph) :
    ((f.withNames name vars).layout g).toOption = (f.layout g).toOption := by
  simp only [layout, toOption_bind, chunks_withNames]
  rw [toOption_mapM (f.resolve_withNames name vars (f.chunks g.order))]
  rfl

/-! ## Lowering -/

/-- What lowering gives, if it succeeds. -/
def lowered? (f : Routine) (slots : List Slot) : Option Lowered :=
  (f.lower slots).toOption.bind (·.2.toOption)

/-- Lowering, pass by pass. -/
theorem lowered?_eq (slots : List Slot) : f.lowered? slots =
    f.analyze.toOption.bind fun g₀ => (f.addExit g₀).1.analyze.toOption.bind fun g₁ =>
      ((f.addExit g₀).1.needs g₁).toOption.bind fun n =>
        ((f.addExit g₀).1.splitJoins g₁ n).toOption.bind fun p =>
        p.1.analyze.toOption.bind fun g => (p.1.bound? n slots).bind fun f₃ =>
          (f₃.checkNeeds g n).toOption.bind fun _ => (f₃.deliverAll g).toOption.bind fun F =>
            (F.layout g).toOption.map fun c =>
              { code := c.1, locals := c.2, exit := (f.addExit g₀).2, edges := p.2 } := by
  rw [lowered?, lower, toOption_bind, Option.bind_assoc]
  refine Option.bind_congr fun g₀ _ => ?_
  generalize f.addExit g₀ = p₁
  obtain ⟨f₁, exit⟩ := p₁
  rw [toOption_bind, Option.bind_assoc]
  refine Option.bind_congr fun g₁ _ => ?_
  rw [toOption_bind, Option.bind_assoc]
  refine Option.bind_congr fun n _ => ?_
  rw [toOption_bind, Option.bind_assoc]
  refine Option.bind_congr fun p _ => ?_
  rw [toOption_bind, Option.bind_assoc]
  refine Option.bind_congr fun g _ => ?_
  rw [bound?, toOption_bind, Option.bind_assoc, Option.bind_assoc]
  refine Option.bind_congr fun q _ => ?_
  obtain ⟨f₃, missing⟩ := q
  cases missing with
  | some e => rfl
  | none =>
    show (f₃.checkNeeds g n >>= _).toOption.bind _ = (f₃.checkNeeds g n).toOption.bind _
    rw [toOption_bind, Option.bind_assoc]
    refine Option.bind_congr fun _ _ => ?_
    rw [toOption_bind, Option.bind_assoc]
    refine Option.bind_congr fun F _ => ?_
    rw [toOption_bind, Option.bind_assoc, Option.map_eq_bind]
    rfl

theorem lowered?_withNames (slots : List Slot) :
    (f.withNames name vars).lowered? slots = f.lowered? slots := by
  rw [lowered?_eq, lowered?_eq, analyze_withNames]
  refine Option.bind_congr fun g₀ _ => ?_
  rw [addExit_withNames]
  dsimp only
  rw [analyze_withNames]
  refine Option.bind_congr fun g₁ _ => Option.bind_congr fun n _ => ?_
  refine bind_of_view (splitJoins_withNames name vars _ g₁ n) fun p => ?_
  rw [fstWithNames, analyze_withNames]
  refine Option.bind_congr fun g _ =>
    bind_of_view (bound?_withNames name vars p.1 n slots) fun f₃ => ?_
  rw [checkNeeds_withNames]
  refine Option.bind_congr fun _ _ => bind_of_view (deliverAll_withNames name vars f₃ g) fun F => ?_
  rw [layout_withNames]

end Routine

end ProcCompiler
