import ProcCompiler.Proofs.Routine.Builder
/-!
# Blocks as code over variables

A listing is straight-line code over locations of one kind. The listing of a block over variables is
what the block was built from: a copy or a call of variables, where the block has registers.
`Traced` ties the two together step by step: it tells where each variable stands, and every register
belongs to the variable that it was made for. `Block.Renders` says that a block was built from a
listing.

* `Traced.snoc`: one more step.
* `Traced.place_cases`: a variable stands where it stood, or in a register of its own.
* `Renders.act`, `Renders.leave`: what the builder's calls render.
-/
namespace ProcCompiler

/-- Straight-line code over locations of one kind. -/
structure Listing (ρ : Type) where
  body : List (Action ρ ρ) := []
  exit : Option (Exit ρ Label) := none

/-! ## Where variables stand -/

/-- The actions `as` do for registers what `ss` does for variables. The variables stand at `loc`
before and at `loc'` after; a register that is written belongs to the variable that is. -/
inductive Traced (own : Reg → Var → Prop) :
    (Var → Ref) → List (Action Reg Ref) → List (Action Var Var) → (Var → Ref) → Prop where
  | nil {loc : Var → Ref} : Traced own loc [] [] loc
  | step {loc loc' : Var → Ref} {as : List (Action Reg Ref)} {ss : List (Action Var Var)}
      {a : Action Var Var} {w : Var} {r : Reg} (hw : a.write? = some w) (hr : own r w)
      (h : Traced own (Function.update loc w (.reg r)) as ss loc') :
      Traced own loc ((a.mapRead loc).mapWrite (fun _ => r) :: as) (a :: ss) loc'

namespace Traced

variable {own own' : Reg → Var → Prop} {loc loc' : Var → Ref} {as : List (Action Reg Ref)}
  {ss : List (Action Var Var)}

theorem mono (ho : ∀ r v, own r v → own' r v) (h : Traced own loc as ss loc') :
    Traced own' loc as ss loc' := by
  induction h with
  | nil => exact .nil
  | step hw hr _ ih => exact .step hw (ho _ _ hr) ih

/-- One more step. -/
theorem snoc (h : Traced own loc as ss loc') {a : Action Var Var} {w : Var} {r : Reg}
    (hw : a.write? = some w) (hr : own r w) :
    Traced own loc (as ++ [(a.mapRead loc').mapWrite fun _ => r]) (ss ++ [a])
      (Function.update loc' w (.reg r)) := by
  induction h with
  | nil => exact .step hw hr .nil
  | step hw' hr' _ ih => exact .step hw' hr' ih

/-- A variable that is not written stays where it was, and one that is written ends in a register of
its own. -/
theorem place_cases (h : Traced own loc as ss loc') (v : Var) :
    (loc' v = loc v ∧ ∀ a ∈ ss, a.write? ≠ some v) ∨
      ∃ r, loc' v = .reg r ∧ own r v ∧ ∃ a ∈ ss, a.write? = some v := by
  induction h with
  | nil => exact .inl ⟨rfl, fun a ha => by cases ha⟩
  | @step loc loc' as ss a w r hw hr _ ih =>
    rcases ih with ⟨hv, hno⟩ | ⟨x, hx, hown, c, hc, hcw⟩
    · by_cases hvw : v = w
      · subst hvw
        rw [Function.update_self] at hv
        exact .inr ⟨r, hv, hr, a, by simp, hw⟩
      · rw [Function.update_of_ne hvw] at hv
        refine .inl ⟨hv, fun c hc => ?_⟩
        rcases List.mem_cons.mp hc with rfl | hc
        · rw [hw]; exact fun e => hvw (Option.some.inj e).symm
        · exact hno c hc
    · exact .inr ⟨x, hx, hown, c, by simp [hc], hcw⟩

end Traced

/-! ## What a listing reads first -/

namespace Listing

/-- The code reads the variable before it writes it. -/
def ReadsFirst (v : Var) : List (Action Var Var) → Option (Exit Var Label) → Prop
  | [], e => e.bind Exit.read? = some v
  | a :: as, e => a.read? = some v ∨ a.write? ≠ some v ∧ ReadsFirst v as e

/-- The listing reads the variable before it writes it. -/
def Reads (s : Listing Var) (v : Var) : Prop := ReadsFirst v s.body s.exit

/-- The listing writes the variable. -/
def Writes (s : Listing Var) (v : Var) : Prop := ∃ a ∈ s.body, a.write? = some v

theorem readsFirst_append {v : Var} {e : Option (Exit Var Label)} (bs : List (Action Var Var)) :
    ∀ as : List (Action Var Var), ReadsFirst v (as ++ bs) e ↔
      ReadsFirst v as none ∨ (∀ a ∈ as, a.write? ≠ some v) ∧ ReadsFirst v bs e
  | [] => by simp [ReadsFirst]
  | a :: as => by
    simp only [List.cons_append, ReadsFirst, readsFirst_append bs as, List.mem_cons,
      forall_eq_or_imp]
    tauto

/-- What is read first, with one more action. -/
theorem reads_act {s : Listing Var} (hx : s.exit = none) (a : Action Var Var) (v : Var) :
    Reads { s with body := s.body ++ [a] } v ↔ s.Reads v ∨ ¬ s.Writes v ∧ a.read? = some v := by
  simp only [Reads, Writes, hx, readsFirst_append, ReadsFirst, Option.bind_none, not_exists,
    not_and, reduceCtorEq, and_false, or_false]

/-- What is read first, with an exit. -/
theorem reads_leave {s : Listing Var} (hx : s.exit = none) (e : Exit Var Label) (v : Var) :
    Reads { s with exit := some e } v ↔ s.Reads v ∨ ¬ s.Writes v ∧ e.read? = some v := by
  have h := readsFirst_append (v := v) (e := some e) [] s.body
  rw [List.append_nil] at h
  simp only [Reads, Writes, hx, not_exists, not_and]
  exact h

end Listing

/-! ## Blocks that were built from listings -/

namespace Block

/-- The block was built from the listing: it does for registers what the listing does for variables,
and waits for what the listing reads first. -/
structure Renders (own : Reg → Var → Prop) (b : Block) (s : Listing Var) : Prop where
  body : Traced own .var b.bodyRefs s.body b.located
  exit : b.exitRef = s.exit.map (·.mapRead b.located)
  params : ∀ v, v ∈ b.params ↔ s.Reads v

variable {own own' : Reg → Var → Prop} {b : Block} {s : Listing Var}

theorem renders_empty (own : Reg → Var → Prop) : Renders own {} {} where
  body := by
    have : located {} = Ref.var := rfl
    rw [this]
    exact .nil
  exit := rfl
  params v := by simp [Listing.Reads, Listing.ReadsFirst]

theorem Renders.mono (ho : ∀ r v, own r v → own' r v) (h : Renders own b s) : Renders own' b s :=
  ⟨h.body.mono ho, h.exit, h.params⟩

theorem located_bind (b : Block) (v : Var) (r : Reg) :
    (b.bind v r).located = Function.update b.located v (.reg r) := by
  funext w
  unfold located
  rw [binding?_bind]
  by_cases hw : w = v
  · subst hw; simp
  · simp [hw]

theorem located_read (b : Block) (v : Var) : (b.read v).2.located = b.located := by
  rcases b.read_cases v with hr | ⟨-, hr⟩ <;> rw [hr]
  rfl

/-- A variable that the block binds is one that it writes. -/
theorem Renders.binding?_eq_none (h : Renders own b s) (v : Var) :
    b.binding? v = none ↔ ¬ s.Writes v := by
  have hloc : b.binding? v = none ↔ b.located v = .var v := by
    unfold located
    cases b.binding? v <;> simp
  rw [hloc]
  rcases h.body.place_cases v with ⟨hv, hno⟩ | ⟨r, hv, -, a, ha, haw⟩
  · exact ⟨fun _ hw => let ⟨a, ha, haw⟩ := hw; hno a ha haw, fun _ => hv⟩
  · exact ⟨fun e => (by rw [hv] at e; cases e), fun hno => absurd ⟨a, ha, haw⟩ hno⟩

/-- A read of a variable that the block does not bind waits for it. -/
theorem mem_params_read (b : Block) (v w : Var) :
    w ∈ (b.read v).2.params ↔ w ∈ b.params ∨ b.binding? v = none ∧ w = v := by
  unfold read
  cases hb : b.binding? v with
  | some r => simp
  | none =>
    simp only
    split
    · rename_i hi
      have hv := List.mem_of_getElem? (getElem?_of_idxOf? hi)
      constructor
      · exact .inl
      · rintro (hw | ⟨-, rfl⟩)
        · exact hw
        · exact hv
    · simp

theorem exit_read (b : Block) (v : Var) : (b.read v).2.exit = b.exit := by
  rcases b.read_cases v with hr | ⟨-, hr⟩ <;> rw [hr]

theorem Renders.exit_eq_none (h : Renders own b s) (hx : s.exit = none) : b.exit = none := by
  have he := h.exit
  rw [hx] at he
  exact Option.map_eq_none_iff.mp he

/-- What a listing reads next is what the block then waits for. -/
theorem Renders.mem_params_read (h : Renders own b s) (v w : Var) :
    w ∈ (b.read v).2.params ↔ s.Reads w ∨ ¬ s.Writes w ∧ some v = some w := by
  rw [Block.mem_params_read, h.params]
  constructor
  · rintro (hw | ⟨hb, rfl⟩)
    · exact .inl hw
    · exact .inr ⟨(h.binding?_eq_none w).mp hb, rfl⟩
  · rintro (hw | ⟨hb, hv⟩)
    · exact .inl hw
    · obtain rfl := Option.some.inj hv
      exact .inr ⟨(h.binding?_eq_none v).mpr hb, rfl⟩

/-- An action on variables: what it reads is read, what it writes gets a register of its own. -/
theorem Renders.act (h : Renders own b s) (hs : b.Sound) (hx : s.exit = none) {a : Action Var Var}
    {v w : Var} {r : Reg} (hv : a.read? = some v) (hw : a.write? = some w) (hr : own r w) :
    Renders own (((b.read v).2.bind w r).add
      (.action ((a.mapRead fun _ => (b.read v).1).mapWrite fun _ => r)))
      { s with body := s.body ++ [a] } where
  body := by
    have hlast : ((a.mapRead fun _ => (b.read v).1).mapWrite fun _ => r).mapRead
        (Operand.ref (b.read v).2.params) = (a.mapRead b.located).mapWrite fun _ => r := by
      have hread : a.mapRead (fun _ => b.located v) = a.mapRead b.located :=
        Action.mapRead_congr fun o ho => by rw [hv] at ho; cases ho; rfl
      rw [← hread, ← b.ref_read v]
      cases a <;> rfl
    have hbody : (((b.read v).2.bind w r).add
        (.action ((a.mapRead fun _ => (b.read v).1).mapWrite fun _ => r))).bodyRefs =
          (b.read v).2.bodyRefs ++ [(a.mapRead b.located).mapWrite fun _ => r] := by
      rw [← hlast]
      simp [bodyRefs, add, Block.bind]
    have hloc : (((b.read v).2.bind w r).add
        (.action ((a.mapRead fun _ => (b.read v).1).mapWrite fun _ => r))).located =
          Function.update b.located w (.reg r) := by
      rw [← located_read b v, ← located_bind]
      rfl
    rw [hbody, hloc, hs.bodyRefs_read]
    exact h.body.snoc hw hr
  exit := by
    have he : (((b.read v).2.bind w r).add
        (.action ((a.mapRead fun _ => (b.read v).1).mapWrite fun _ => r))).exit = none := by
      show (b.read v).2.exit = none
      rw [exit_read, h.exit_eq_none hx]
    rw [exitRef, he, hx]
    rfl
  params x := by
    rw [Listing.reads_act hx, hv]
    exact h.mem_params_read v x

/-- An exit that depends on a variable. -/
theorem Renders.leave_on (h : Renders own b s) (hs : b.Sound) (hx : s.exit = none)
    {e : Exit Var Label} {v : Var} (hv : e.read? = some v) :
    Renders own ((b.read v).2.add (.exit (e.mapRead fun _ => (b.read v).1)))
      { s with exit := some e } where
  body := by
    have hbody : ((b.read v).2.add (.exit (e.mapRead fun _ => (b.read v).1))).bodyRefs =
        b.bodyRefs :=
      hs.bodyRefs_read v
    have hloc : ((b.read v).2.add (.exit (e.mapRead fun _ => (b.read v).1))).located = b.located :=
      located_read b v
    rw [hbody, hloc]
    exact h.body
  exit := by
    have hloc : ((b.read v).2.add (.exit (e.mapRead fun _ => (b.read v).1))).located = b.located :=
      located_read b v
    have hread : e.mapRead (fun _ => b.located v) = e.mapRead b.located :=
      Exit.mapRead_congr fun o ho => by rw [hv] at ho; cases ho; rfl
    rw [hloc, Option.map_some, ← hread, ← b.ref_read v]
    cases e <;> rfl
  params x := by
    rw [Listing.reads_leave hx, hv]
    exact h.mem_params_read v x

/-- An exit that depends on nothing. -/
theorem Renders.leave (h : Renders own b s) (hx : s.exit = none) {e : Exit Var Label}
    (hv : e.read? = none) (o : Operand) :
    Renders own (b.add (.exit (e.mapRead fun _ => o))) { s with exit := some e } where
  body := h.body
  exit := by
    cases e with
    | jump t => rfl
    | branch c t u => cases hv
    | ret => rfl
  params x := by
    show x ∈ b.params ↔ _
    rw [Listing.reads_leave hx, hv, h.params]
    simp

end Block

end ProcCompiler
