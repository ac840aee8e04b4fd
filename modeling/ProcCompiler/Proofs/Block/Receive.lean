import Mathlib.Data.List.Nodup
import Mathlib.Logic.Function.Basic
import ProcCompiler.Lowering.Joins
/-!
# Registers that arrive in a block

Removing a parameter renumbers those after it, so operands are compared by what they name: `Ref` is
an operand with the parameter's variable in place of its number. `Filled b b' σ` says that `b'` is
`b` after the registers `σ` arrived: reads of a variable that arrived are reads of its register, the
parameters that arrived are gone, and a variable that the block does not bind itself is bound to
what arrived.

* `body_of_refs`, `exit_of_refs`: the instructions from their references.
* `Filled.receive`: one more arrival.
* `filled_receiveAll`: a list of arrivals for distinct variables.
* `Filled.known`: when every parameter arrived, every operand is known.
-/
namespace ProcCompiler

/-- What an operand names: a register, a variable, or nothing that will ever arrive. -/
inductive Ref where
  | reg (r : Reg)
  | var (v : Var)
  | stray (k : Nat)
  | loose
deriving DecidableEq

/-- The operand's reference among the given parameters. -/
def Operand.ref (params : List Var) : Operand → Ref
  | .reg r => .reg r
  | .param i =>
    match params[i]? with
    | some v => .var v
    | none => .loose
  | .stray k => .stray k

/-- Variables that arrived become their registers. -/
def Ref.fill (σ : Var → Option Reg) : Ref → Ref
  | .var v =>
    match σ v with
    | some r => .reg r
    | none => .var v
  | x => x

namespace Action

variable {ω ρ ρ' ρ'' : Type}

theorem mapRead_mapRead (f : ρ → ρ') (g : ρ' → ρ'') (a : Action ω ρ) :
    (a.mapRead f).mapRead g = a.mapRead (g ∘ f) := by
  cases a <;> rfl

theorem mapRead_congr {f g : ρ → ρ'} {a : Action ω ρ} (h : ∀ o, a.read? = some o → f o = g o) :
    a.mapRead f = a.mapRead g := by
  cases a with
  | move out arg => rw [mapRead, mapRead, h arg rfl]
  | call fn out arg => rw [mapRead, mapRead, h arg rfl]
  | unknown code => rfl

@[simp] theorem write?_mapRead (f : ρ → ρ') (a : Action ω ρ) : (a.mapRead f).write? = a.write? := by
  cases a <;> rfl

@[simp] theorem read?_mapRead (f : ρ → ρ') (a : Action ω ρ) :
    (a.mapRead f).read? = a.read?.map f := by
  cases a <;> rfl

@[simp] theorem read?_mapWrite {ω' : Type} (f : ω → ω') (a : Action ω ρ) :
    (a.mapWrite f).read? = a.read? := by
  cases a <;> rfl

theorem write?_mapWrite {ω' : Type} (f : ω → ω') (a : Action ω ρ) :
    (a.mapWrite f).write? = a.write?.map f := by
  cases a <;> rfl

end Action

namespace Exit

variable {ρ ρ' ρ'' ℓ ℓ' : Type}

theorem mapRead_mapRead (f : ρ → ρ') (g : ρ' → ρ'') (e : Exit ρ ℓ) :
    (e.mapRead f).mapRead g = e.mapRead (g ∘ f) := by
  cases e <;> rfl

theorem mapRead_mapLabel (f : ρ → ρ') (g : ℓ → ℓ') (e : Exit ρ ℓ) :
    (e.mapLabel g).mapRead f = (e.mapRead f).mapLabel g := by
  cases e <;> rfl

theorem mapRead_congr {f g : ρ → ρ'} {e : Exit ρ ℓ} (h : ∀ o, e.read? = some o → f o = g o) :
    e.mapRead f = e.mapRead g := by
  cases e with
  | jump target => rfl
  | branch cond taken other => rw [mapRead, mapRead, h cond rfl]
  | ret => rfl

@[simp] theorem read?_mapRead (f : ρ → ρ') (e : Exit ρ ℓ) :
    (e.mapRead f).read? = e.read?.map f := by
  cases e <;> rfl

@[simp] theorem labels_mapRead [DecidableEq ℓ] (f : ρ → ρ') (e : Exit ρ ℓ) :
    (e.mapRead f).labels = e.labels := by
  cases e <;> rfl

end Exit

namespace Instr

variable {ω ρ ρ' ρ'' ℓ : Type} (x : Instr ω ρ ℓ)

theorem mapRead_mapRead (f : ρ → ρ') (g : ρ' → ρ'') :
    (x.mapRead f).mapRead g = x.mapRead (g ∘ f) := by
  cases x with
  | action a => exact congrArg action (Action.mapRead_mapRead f g a)
  | exit e => exact congrArg exit (Exit.mapRead_mapRead f g e)

theorem read?_mapRead (f : ρ → ρ') : (x.mapRead f).read? = x.read?.map f := by
  cases x with
  | action a => exact Action.read?_mapRead f a
  | exit e => exact Exit.read?_mapRead f e

@[simp] theorem write?_mapRead (f : ρ → ρ') : (x.mapRead f).write? = x.write? := by
  cases x with
  | action a => exact Action.write?_mapRead f a
  | exit e => rfl

end Instr

namespace Ref

theorem fill_none (x : Ref) : x.fill (fun _ => none) = x := by
  cases x <;> rfl

/-- Filling twice is filling with both, the first before the second. -/
theorem fill_fill (σ τ : Var → Option Reg) (x : Ref) :
    (x.fill σ).fill τ = x.fill fun v => (σ v).or (τ v) := by
  cases x with
  | var w => cases hσ : σ w <;> simp [fill, hσ]
  | _ => rfl

end Ref

/-- Settling a parameter is filling its variable. -/
theorem Operand.ref_settle {params : List Var} {i : Nat} {v : Var} (hn : params.Nodup)
    (hi : params[i]? = some v) (r : Reg) (o : Operand) :
    (o.settle i r).ref (params.eraseIdx i) =
      (o.ref params).fill (Function.update (fun _ => none) v (some r)) := by
  cases o with
  | reg s => rfl
  | stray k => rfl
  | param j =>
    have hne : ∀ w, params[j]? = some w → j ≠ i → w ≠ v := by
      rintro w hw hji rfl
      have hj := (List.getElem?_eq_some_iff.mp hw).1
      exact hji ((List.getElem?_inj hj hn).mp (hw.trans hi.symm))
    have hother : j ≠ i → (match params[j]? with | some w => Ref.var w | none => Ref.loose) =
        Ref.fill (Function.update (fun _ => none) v (some r))
          (match params[j]? with | some w => Ref.var w | none => Ref.loose) := by
      intro hji
      cases hw : params[j]? with
      | none => rfl
      | some w => simp [Ref.fill, Function.update_of_ne (hne w hw hji)]
    simp only [settle]
    rcases Nat.lt_trichotomy j i with h | h | h
    · rw [if_pos h]
      simp only [ref, List.getElem?_eraseIdx, if_pos h]
      exact hother (by omega)
    · subst h
      simp [ref, hi, Ref.fill]
    · rw [if_neg (by omega), if_neg (by omega)]
      simp only [ref, List.getElem?_eraseIdx]
      rw [if_neg (by omega), show j - 1 + 1 = j by omega]
      exact hother (by omega)

namespace Block

/-- The body with references in place of operands. -/
def bodyRefs (b : Block) : List (Action Reg Ref) := b.body.map (·.mapRead (Operand.ref b.params))

/-- The exit with references in place of operands. -/
def exitRef (b : Block) : Option (Exit Ref Label) := b.exit.map (·.mapRead (Operand.ref b.params))

/-- A function that finds the operands of the block by their references gives back the body. -/
theorem body_of_refs {b : Block} {φ : Ref → Operand}
    (h : ∀ a ∈ b.body, ∀ o, a.read? = some o → φ (o.ref b.params) = o) :
    b.bodyRefs.map (·.mapRead φ) = b.body := by
  rw [bodyRefs, List.map_map]
  refine (List.map_congr_left fun a ha => ?_).trans (List.map_id _)
  rw [Function.comp, Action.mapRead_mapRead]
  refine (Action.mapRead_congr (g := id) fun o ho => h a ha o ho).trans ?_
  cases a <;> rfl

theorem exit_of_refs {b : Block} {φ : Ref → Operand}
    (h : ∀ e ∈ b.exit, ∀ o, e.read? = some o → φ (o.ref b.params) = o) :
    b.exitRef.map (·.mapRead φ) = b.exit := by
  rw [exitRef, Option.map_map]
  refine (Option.map_congr fun e he => ?_).trans Option.map_id'
  rw [Function.comp, Exit.mapRead_mapRead]
  refine (Exit.mapRead_congr (g := id) fun o ho => h e he o ho).trans ?_
  cases e <;> rfl

/-- `b'` is `b` after the registers `σ` arrived. -/
structure Filled (b b' : Block) (σ : Var → Option Reg) : Prop where
  params : b'.params = b.params.filter fun v => (σ v).isNone
  body : b'.bodyRefs = b.bodyRefs.map (·.mapRead (Ref.fill σ))
  exit : b'.exitRef = b.exitRef.map (·.mapRead (Ref.fill σ))
  binding : ∀ v, b'.binding? v = (b.binding? v).or (σ v)

theorem filled_refl (b : Block) : Filled b b fun _ => none where
  params := by simp
  body := by
    symm
    apply List.map_id''
    intro a
    cases a <;> simp [Action.mapRead, Ref.fill_none]
  exit := by
    cases h : b.exitRef with
    | none => rfl
    | some e => cases e <;> simp [Exit.mapRead, Ref.fill_none]
  binding v := by simp

theorem Filled.trans {b b' b'' : Block} {σ τ : Var → Option Reg} (h : Filled b b' σ)
    (h' : Filled b' b'' τ) : Filled b b'' fun v => (σ v).or (τ v) := by
  have hcomp : Ref.fill τ ∘ Ref.fill σ = Ref.fill fun v => (σ v).or (τ v) :=
    funext (Ref.fill_fill σ τ)
  refine ⟨?_, ?_, ?_, fun v => ?_⟩
  · rw [h'.params, h.params, List.filter_filter]
    apply List.filter_congr
    intro v _
    cases σ v <;> simp
  · rw [h'.body, h.body, List.map_map]
    simp only [Function.comp_def, Action.mapRead_mapRead]
    simp only [← Function.comp_def, hcomp]
  · rw [h'.exit, h.exit, Option.map_map]
    simp only [Function.comp_def, Exit.mapRead_mapRead]
    simp only [← Function.comp_def, hcomp]
  · rw [h'.binding, h.binding, Option.or_assoc]

/-! ## One arrival -/

theorem fill_params (b : Block) (v : Var) (r : Reg) : (b.fill v r).params = b.params.erase v := by
  unfold fill
  cases h : b.params.idxOf? v with
  | none => simp only; rw [List.erase_of_not_mem (List.idxOf?_eq_none_iff.mp h)]
  | some i =>
    simp only
    rw [List.erase_eq_eraseIdx, h]

theorem getElem?_of_idxOf? {params : List Var} {v : Var} {i : Nat} (h : params.idxOf? v = some i) :
    params[i]? = some v := by
  rw [List.idxOf?, List.findIdx?_eq_some_iff_getElem] at h
  obtain ⟨hi, hv, -⟩ := h
  rw [List.getElem?_eq_getElem hi]
  exact congrArg some (eq_of_beq hv)

/-- A reference to a variable is one to a parameter. -/
theorem mem_params_of_ref {params : List Var} {o : Operand} {v : Var} (h : o.ref params = .var v) :
    v ∈ params := by
  cases o with
  | reg r => cases h
  | stray k => cases h
  | param i =>
    simp only [Operand.ref] at h
    split at h
    · cases h; exact List.mem_of_getElem? ‹_›
    · cases h

theorem ref_fill_of_not_mem {params : List Var} {v : Var} (hv : v ∉ params) (r : Reg)
    (o : Operand) :
    (o.ref params).fill (Function.update (fun _ => none) v (some r)) = o.ref params := by
  cases h : o.ref params with
  | var w =>
    have : w ≠ v := fun e => hv (e ▸ mem_params_of_ref h)
    simp [Ref.fill, Function.update_of_ne this]
  | _ => rfl

theorem bodyRefs_fill {b : Block} (hn : b.params.Nodup) (v : Var) (r : Reg) :
    (b.fill v r).bodyRefs =
      b.bodyRefs.map (·.mapRead (Ref.fill (Function.update (fun _ => none) v (some r)))) := by
  unfold fill bodyRefs
  rw [List.map_map]
  cases h : b.params.idxOf? v with
  | none =>
    apply List.map_congr_left
    intro a _
    rw [Function.comp, Action.mapRead_mapRead]
    exact Action.mapRead_congr fun o _ =>
      (ref_fill_of_not_mem (List.idxOf?_eq_none_iff.mp h) r o).symm
  | some i =>
    simp only [mapRead, List.map_map]
    apply List.map_congr_left
    intro a _
    simp only [Function.comp, Action.mapRead_mapRead]
    exact Action.mapRead_congr fun o _ => Operand.ref_settle hn (getElem?_of_idxOf? h) r o

theorem exitRef_fill {b : Block} (hn : b.params.Nodup) (v : Var) (r : Reg) :
    (b.fill v r).exitRef =
      b.exitRef.map (·.mapRead (Ref.fill (Function.update (fun _ => none) v (some r)))) := by
  unfold fill exitRef
  rw [Option.map_map]
  cases h : b.params.idxOf? v with
  | none =>
    apply Option.map_congr
    intro e _
    rw [Function.comp, Exit.mapRead_mapRead]
    exact Exit.mapRead_congr fun o _ =>
      (ref_fill_of_not_mem (List.idxOf?_eq_none_iff.mp h) r o).symm
  | some i =>
    simp only [mapRead, Option.map_map]
    apply Option.map_congr
    intro e _
    simp only [Function.comp, Exit.mapRead_mapRead]
    exact Exit.mapRead_congr fun o _ => Operand.ref_settle hn (getElem?_of_idxOf? h) r o

theorem bindings_fill (b : Block) (v : Var) (r : Reg) : (b.fill v r).bindings = b.bindings := by
  unfold fill
  split <;> rfl

/-- A block keeps its own binding; a missing one becomes what arrived. -/
theorem binding?_receive (b : Block) (v w : Var) (r : Reg) :
    (b.receive v r).binding? w = (b.binding? w).or
      (Function.update (fun _ => none) v (some r) w) := by
  simp only [receive, binding?, bindings_fill, Std.ExtTreeMap.getElem?_insertIfNew]
  by_cases hw : w = v
  · subst hw
    cases h : b.bindings[w]? with
    | none =>
      have : w ∉ b.bindings := by simpa using h
      simp [this]
    | some s =>
      have : w ∈ b.bindings := by
        rw [Std.ExtTreeMap.mem_iff_isSome_getElem?, h]; rfl
      simp [this]
  · have hc : ¬ compare v w = .eq := fun e => hw (Std.LawfulEqOrd.eq_of_compare e).symm
    simp [hc, Function.update_of_ne hw]

/-- One register arrives. -/
theorem filled_receive {b : Block} (hn : b.params.Nodup) (v : Var) (r : Reg) :
    Filled b (b.receive v r) (Function.update (fun _ => none) v (some r)) where
  params := by
    show (b.fill v r).params = _
    rw [fill_params, hn.erase_eq_filter]
    apply List.filter_congr
    intro w _
    by_cases hw : w = v
    · simp [hw]
    · simp [hw]
  body := bodyRefs_fill hn v r
  exit := exitRef_fill hn v r
  binding w := binding?_receive b v w r

/-- One more register arrives. -/
theorem Filled.receive {b b' : Block} {σ : Var → Option Reg} (h : Filled b b' σ)
    (hn : b.params.Nodup) {v : Var} (hv : σ v = none) (r : Reg) :
    Filled b (b'.receive v r) (Function.update σ v (some r)) := by
  have hσ : (fun w => (σ w).or (Function.update (fun _ => none) v (some r) w)) =
      Function.update σ v (some r) := by
    funext w
    by_cases hw : w = v
    · subst hw; simp [hv]
    · simp [Function.update_of_ne hw]
  rw [← hσ]
  exact h.trans (filled_receive (by rw [h.params]; exact hn.filter _) v r)

/-! ## Several arrivals -/

theorem Filled.receiveAll {b : Block} (hn : b.params.Nodup) :
    ∀ (arrivals : List (Var × Reg)) {b' : Block} {σ : Var → Option Reg}, Filled b b' σ →
      (arrivals.map Prod.fst).Nodup → (∀ a ∈ arrivals, σ a.1 = none) →
      Filled b (b'.receiveAll arrivals) fun v => (σ v).or (arrivals.lookup v)
  | [], b', σ, h, _, _ => by simpa [Block.receiveAll] using h
  | (v, r) :: arrivals, b', σ, h, hd, hσ => by
    rw [List.map_cons, List.nodup_cons] at hd
    have key := Filled.receiveAll hn arrivals (h.receive hn (hσ (v, r) (by simp)) r) hd.2 (by
      intro a ha
      have hne : a.1 ≠ v := fun e => hd.1 (List.mem_map.mpr ⟨a, ha, e⟩)
      rw [Function.update_of_ne hne]
      exact hσ a (by simp [ha]))
    have hσ' : (fun w => (Function.update σ v (some r) w).or (arrivals.lookup w)) =
        fun w => (σ w).or (((v, r) :: arrivals).lookup w) := by
      funext w
      by_cases hw : w = v
      · subst hw
        simp [hσ (w, r) (by simp)]
      · have : (w == v) = false := by simpa using hw
        simp [Function.update_of_ne hw, List.lookup_cons, this]
    rw [hσ'] at key
    exact key

/-- Registers for distinct variables arrive. -/
theorem filled_receiveAll {b : Block} (hn : b.params.Nodup) {arrivals : List (Var × Reg)}
    (hd : (arrivals.map Prod.fst).Nodup) :
    Filled b (b.receiveAll arrivals) (arrivals.lookup ·) := by
  simpa using Filled.receiveAll hn arrivals (filled_refl b) hd (by simp)

/-! ## Nothing left to wait for -/

/-- Every operand names a register or a parameter. -/
structure Tight (b : Block) : Prop where
  body : ∀ a ∈ b.bodyRefs, a.read? ≠ some .loose
  exit : ∀ e ∈ b.exitRef, e.read? ≠ some .loose

theorem Ref.fill_eq_loose {σ : Var → Option Reg} {x : Ref} : x.fill σ = .loose ↔ x = .loose := by
  cases x with
  | var v => simp only [Ref.fill]; split <;> simp
  | _ => simp [Ref.fill]

theorem Filled.tight {b b' : Block} {σ : Var → Option Reg} (h : Filled b b' σ) (ht : b.Tight) :
    b'.Tight where
  body a ha := by
    rw [h.body, List.mem_map] at ha
    obtain ⟨x, hx, rfl⟩ := ha
    intro hl
    rw [Action.read?_mapRead, Option.map_eq_some_iff] at hl
    obtain ⟨y, hy, hly⟩ := hl
    exact ht.body x hx (hy.trans (congrArg some (Ref.fill_eq_loose.mp hly)))
  exit e he := by
    rw [h.exit, Option.mem_def, Option.map_eq_some_iff] at he
    obtain ⟨x, hx, rfl⟩ := he
    intro hl
    rw [Exit.read?_mapRead, Option.map_eq_some_iff] at hl
    obtain ⟨y, hy, hly⟩ := hl
    exact ht.exit x hx (hy.trans (congrArg some (Ref.fill_eq_loose.mp hly)))

/-- Every operand of the block is known. -/
structure Known (b : Block) : Prop where
  body : ∀ a ∈ b.body, ∀ o, a.read? = some o → o.known?.isSome
  exit : ∀ e ∈ b.exit, ∀ o, e.read? = some o → o.known?.isSome

theorem known?_isSome_of_ref {o : Operand} (h : o.ref [] ≠ .loose) : o.known?.isSome := by
  cases o with
  | reg r => rfl
  | stray k => rfl
  | param i => simp [Operand.ref] at h

/-- A block that waits for nothing knows all its operands. -/
theorem Tight.known {b : Block} (h : b.Tight) (hp : b.params = []) : b.Known where
  body a ha o ho := by
    apply known?_isSome_of_ref
    intro hl
    apply h.body (a.mapRead (Operand.ref b.params)) (List.mem_map_of_mem ha)
    rw [Action.read?_mapRead, ho, hp, Option.map_some, hl]
  exit e he o ho := by
    apply known?_isSome_of_ref
    intro hl
    apply h.exit (e.mapRead (Operand.ref b.params)) (Option.mem_map_of_mem _ he)
    rw [Exit.read?_mapRead, ho, hp, Option.map_some, hl]

end Block

end ProcCompiler
