import ProcCompiler.Proofs.Draft.Body
/-!
# Where the statements went

A plan says what a body became: the listing of each block, the variable of each name, the block of
each label. `Plan.Follows` ties the statements to points of the listings, one by one: each statement
is the action or the exit at its point, and the next statement stands at the next point, or nowhere
if control does not go on to it. Drafting makes a plan that the body follows.

* `Plan.Extends.of_drafted`: a plan for what comes later is one for what was before.
* `Plan.follows_of_draftedAll`: drafted statements follow the plan.
* `Plan.follows_after`: what stands after a label follows the plan from the start of the label's
  block.
-/
namespace ProcCompiler

/-- What a body became. -/
structure Plan where
  sketch : BlockId → Listing Var
  /-- The names of the variables, in the order of the variables. -/
  names : List String
  block : String → BlockId
  func : String → FuncId

/-- A place in the listing of a block. -/
structure Point where
  block : BlockId
  index : Nat

namespace Plan

/-- The variable of a name. -/
def var (P : Plan) (name : String) : Var := (P.names.idxOf name : Nat)

theorem var_inj {P : Plan} {x y : String} (hx : x ∈ P.names) : P.var x = P.var y ↔ x = y := by
  unfold var
  rw [Int.ofNat_inj, List.idxOf_inj hx]

/-- The action at a point. -/
def Acts (P : Plan) (p : Point) (a : Action Var Var) : Prop :=
  (P.sketch p.block).body[p.index]? = some a

/-- The exit at a point, at the end of its listing. -/
def Leaves (P : Plan) (p : Point) (e : Exit Var Label) : Prop :=
  (P.sketch p.block).body.length = p.index ∧ (P.sketch p.block).exit = some e

def next (p : Point) : Point := { p with index := p.index + 1 }

/-- The start of a label's block. -/
def start (P : Plan) (name : String) : Point := { block := P.block name, index := 0 }

/-- The statements stand in the listings, from a point on. -/
def Follows (P : Plan) : List Stmt → Option Point → Prop
  | [], p => ∀ q ∈ p, P.Leaves q .ret
  | .label id :: rest, p =>
    (∀ q ∈ p, P.Leaves q (.jump (P.block id.name))) ∧ P.Follows rest (some (P.start id.name))
  | .move dst src :: rest, p =>
    ∃ q, p = some q ∧ (dst.name ∈ P.names ∧ src.name ∈ P.names) ∧
      P.Acts q (.move (P.var dst.name) (P.var src.name)) ∧ P.Follows rest (some (next q))
  | .call fn var :: rest, p =>
    ∃ q, p = some q ∧ var.name ∈ P.names ∧
      P.Acts q (.call (P.func fn.name) (P.var var.name) (P.var var.name)) ∧
        P.Follows rest (some (next q))
  | .goto target :: rest, p =>
    ∃ q, p = some q ∧ P.Leaves q (.jump (P.block target.name)) ∧ P.Follows rest none
  | .branch cond yes no :: rest, p =>
    ∃ q, p = some q ∧ cond.name ∈ P.names ∧
      P.Leaves q (.branch (P.var cond.name) (P.block yes.name) (P.block no.name)) ∧
        P.Follows rest none
  | .ret _ :: rest, p => ∃ q, p = some q ∧ P.Leaves q .ret ∧ P.Follows rest none
  | .unknown :: _, _ => False

/-- The plan keeps the names and labels of a draft, and its listings go on from those of the
draft. -/
structure Extends (P : Plan) (table : ForeignTable) (d : Draft) (sk : BlockId → Listing Var) :
    Prop where
  var : ∀ name ∈ d.routine.vars.toList, name ∈ P.names ∧ P.var name = d.varAt name
  block : ∀ name b, d.blockAt? name = some b → P.block name = b
  func : ∀ name i, table.lookup? name = some i → P.func name = i
  body : ∀ b, (sk b).body <+: (P.sketch b).body
  closed : ∀ b, (sk b).exit ≠ none → P.sketch b = sk b

/-- Where the next statement goes. -/
def point (d : Draft) (sk : BlockId → Listing Var) : Option Point :=
  d.current.map fun b => { block := b, index := (sk b).body.length }

end Plan

/-! ## Drafts only grow -/

namespace Draft

variable {table : ForeignTable} {d d' : Draft} {sk sk' : BlockId → Listing Var} {s : Stmt}

theorem varAt_congr (h : d'.routine.vars = d.routine.vars) (name : String) :
    d'.varAt name = d.varAt name := by
  unfold varAt; rw [h]

theorem blockAt?_congr (h : d'.labels = d.labels) (name : String) :
    d'.blockAt? name = d.blockAt? name := by
  unfold blockAt?; rw [h]

/-- Names keep their variables. -/
theorem Drafted.keeps_var (hs : Drafted table d sk s d' sk') {name : String}
    (hn : name ∈ d.routine.vars.toList) :
    name ∈ d'.routine.vars.toList ∧ d'.varAt name = d.varAt name := by
  have same : d'.routine.vars = d.routine.vars →
      name ∈ d'.routine.vars.toList ∧ d'.varAt name = d.varAt name := fun hv =>
    ⟨by rw [hv]; exact hn, varAt_congr hv name⟩
  have one : ∀ x, d'.routine.vars = (d.addVar x).routine.vars →
      name ∈ d'.routine.vars.toList ∧ d'.varAt name = d.varAt name := fun x hv =>
    ⟨by rw [hv]; exact mem_vars_addVar.mpr (.inl hn),
      (varAt_congr hv name).trans (varAt_addVar hn x)⟩
  cases hs with
  | move hb hb' hl hv =>
    refine ⟨by rw [hv]; exact mem_vars_addVar.mpr (.inl (mem_vars_addVar.mpr (.inl hn))), ?_⟩
    rw [varAt_congr hv, varAt_addVar (mem_vars_addVar.mpr (.inl hn)), varAt_addVar hn]
  | call hf hb hb' hl hv => exact one _ hv
  | goto hb hb' hl ht hv => exact same hv
  | branch hb hb' hl ht hu hv => exact one _ hv
  | ret hb hb' hl hv => exact same hv
  | label hb' hl ht hnew hne hv => exact same hv

/-- Labels keep their blocks. -/
theorem Drafted.keeps_block (hs : Drafted table d sk s d' sk') {name : String} {b : BlockId}
    (hb : d.blockAt? name = some b) : d'.blockAt? name = some b := by
  cases hs with
  | move _ _ hl _ => rw [blockAt?_congr hl]; exact hb
  | call _ _ _ hl _ => rw [blockAt?_congr hl]; exact hb
  | goto _ _ hl _ _ => rw [blockAt?_congr hl]; exact blockAt?_addLabel hb _
  | branch _ _ hl _ _ _ =>
    rw [blockAt?_congr hl]
    exact blockAt?_addLabel
      (blockAt?_addLabel (by rw [blockAt?_congr (labels_addVar d _)]; exact hb) _) _
  | ret _ _ hl _ => rw [blockAt?_congr hl]; exact hb
  | @label t id d' _ hl _ _ _ _ =>
    have hl' : d'.labels = ({ d.addLabel id with
        labels := defineLabel (d.addLabel id).labels id.name } : Draft).labels := hl
    rw [blockAt?_congr hl', blockAt?_defineLabel]
    exact blockAt?_addLabel hb _

/-- Listings go on, and those that ended stay. -/
theorem Drafted.grows (hi : d.Inv sk) (hs : Drafted table d sk s d' sk') (c : BlockId) :
    (sk c).body <+: (sk' c).body ∧ ((sk c).exit ≠ none → sk' c = sk c) := by
  have key : ∀ {b : BlockId} {l : Listing Var}, d.current = some b → (sk b).body <+: l.body →
      (sk c).body <+: (Function.update sk b l c).body ∧
        ((sk c).exit ≠ none → Function.update sk b l c = sk c) := by
    intro b l hb hl
    by_cases hc : c = b
    · subst hc
      rw [Function.update_self]
      exact ⟨hl, fun hx => absurd (hi.current c hb).2.2.1 hx⟩
    · rw [Function.update_of_ne hc]
      exact ⟨List.prefix_refl _, fun _ => rfl⟩
  cases hs with
  | move hb _ _ _ => exact key hb (List.prefix_append _ _)
  | call _ hb _ _ _ => exact key hb (List.prefix_append _ _)
  | goto hb _ _ _ _ => exact key hb (List.prefix_refl _)
  | branch hb _ _ _ _ _ => exact key hb (List.prefix_refl _)
  | ret hb _ _ _ => exact key hb (List.prefix_refl _)
  | label _ _ _ _ _ _ =>
    cases hb : d.current with
    | some b => exact key hb (List.prefix_refl _)
    | none => exact ⟨List.prefix_refl _, fun _ => rfl⟩

end Draft

/-! ## Drafted statements follow the plan -/

namespace Plan

open Draft

variable {P : Plan} {table : ForeignTable} {d d' : Draft} {sk sk' : BlockId → Listing Var}

/-- A plan for what comes later is one for what was before. -/
theorem Extends.of_drafted {s : Stmt} (h : P.Extends table d' sk') (hi : d.Inv sk)
    (hs : Drafted table d sk s d' sk') : P.Extends table d sk where
  var name hn := by
    obtain ⟨hm, hv⟩ := hs.keeps_var hn
    rw [← hv]
    exact h.var name hm
  block name b hb := h.block name b (hs.keeps_block hb)
  func := h.func
  body b := (hs.grows hi b).1.trans (h.body b)
  closed b hx := by
    have hg := (hs.grows hi b).2 hx
    rw [h.closed b (by rw [hg]; exact hx), hg]

section

variable {b : BlockId}

theorem point_of_current (hb : d.current = some b) :
    point d sk = some { block := b, index := (sk b).body.length } := by
  rw [point, hb]; rfl

theorem point_of_closed (hb : d.current = none) : point d sk = none := by rw [point, hb]; rfl

theorem point_start {name : String} (hb : d.current = some b) (hp : P.block name = b)
    (hs : sk b = {}) :
    point d sk = some (P.start name) := by
  rw [point_of_current hb, hs, start, hp]; rfl

/-- The plan has the action that was added, and the next point is behind it. -/
theorem Extends.acts {a : Action Var Var}
    (h : P.Extends table d' (Function.update sk b { sk b with body := (sk b).body ++ [a] }))
    (hb' : d'.current = some b) : P.Acts { block := b, index := (sk b).body.length } a ∧
      point d' (Function.update sk b { sk b with body := (sk b).body ++ [a] }) =
        some (next { block := b, index := (sk b).body.length }) := by
  obtain ⟨more, hm⟩ := h.body b
  rw [Function.update_self] at hm
  refine ⟨by simp [Acts, ← hm], ?_⟩
  rw [point_of_current hb', Function.update_self]
  simp [next]

/-- The plan has the exit that was added. -/
theorem Extends.leaves {e : Exit Var Label}
    (h : P.Extends table d' (Function.update sk b { sk b with exit := some e })) :
    P.Leaves { block := b, index := (sk b).body.length } e := by
  have hx := h.closed b (by rw [Function.update_self]; simp)
  rw [Function.update_self] at hx
  exact ⟨by rw [hx], by rw [hx]⟩

end

/-- One drafted statement stands at its point, if the rest follows the plan. -/
theorem Extends.follows_cons {s : Stmt} {rest : List Stmt} (h : P.Extends table d' sk')
    (hs : Drafted table d sk s d' sk') (hf : P.Follows rest (point d' sk')) :
    P.Follows (s :: rest) (point d sk) := by
  cases hs with
  | move hb hb' hl hv =>
    obtain ⟨ha, hp⟩ := h.acts hb'
    rw [hp] at hf
    obtain ⟨hdst, hd⟩ := h.var _ (by rw [hv]; exact mem_vars_addVar.mpr (.inr rfl))
    obtain ⟨hsrc, hs⟩ :=
      h.var _ (by rw [hv]; exact mem_vars_addVar.mpr (.inl (mem_vars_addVar.mpr (.inr rfl))))
    rw [← hd, ← hs] at ha
    exact ⟨_, point_of_current hb, ⟨hdst, hsrc⟩, ha, hf⟩
  | call hi hb hb' hl hv =>
    obtain ⟨ha, hp⟩ := h.acts hb'
    rw [hp] at hf
    obtain ⟨hvar, hv'⟩ := h.var _ (by rw [hv]; exact mem_vars_addVar.mpr (.inr rfl))
    rw [← hv', ← h.func _ _ hi] at ha
    exact ⟨_, point_of_current hb, hvar, ha, hf⟩
  | goto hb hb' hl ht hv =>
    have hx := h.leaves
    rw [← h.block _ _ ht] at hx
    exact ⟨_, point_of_current hb, hx, point_of_closed hb' ▸ hf⟩
  | branch hb hb' hl ht hu hv =>
    have hx := h.leaves
    obtain ⟨hcond, hv'⟩ := h.var _ (by rw [hv]; exact mem_vars_addVar.mpr (.inr rfl))
    rw [← h.block _ _ ht, ← h.block _ _ hu, ← hv'] at hx
    exact ⟨_, point_of_current hb, hcond, hx, point_of_closed hb' ▸ hf⟩
  | ret hb hb' hl hv => exact ⟨_, point_of_current hb, h.leaves, point_of_closed hb' ▸ hf⟩
  | label hb' hl ht hnew hne hv =>
    have ht' := h.block _ _ ht
    cases hb : d.current with
    | none =>
      simp only [hb] at h hf
      refine ⟨fun q hq => ?_, ?_⟩
      · rw [point_of_closed hb] at hq; cases hq
      · rw [← point_start hb' ht' hnew]; exact hf
    | some b =>
      simp only [hb] at h hf
      refine ⟨fun q hq => ?_, ?_⟩
      · rw [point_of_current hb] at hq
        cases hq
        rw [ht']
        exact h.leaves
      · rw [← point_start hb' ht']
        · exact hf
        · rw [Function.update_of_ne]
          · exact hnew
          · rintro rfl; exact hne hb

/-- Drafted statements follow every plan for what they became. -/
theorem follows_of_draftedAll {body : List Stmt} (h : DraftedAll table d sk body d' sk')
    (he : P.Extends table d' sk') (hend : ∀ q ∈ point d' sk', P.Leaves q .ret) :
    P.Follows body (point d sk) ∧ P.Extends table d sk := by
  induction h with
  | nil => exact ⟨hend, he⟩
  | cons hi hs _ ih =>
    obtain ⟨hf, he₁⟩ := ih he hend
    exact ⟨he₁.follows_cons hs hf, he₁.of_drafted hi hs⟩

/-- What stands after a label follows the plan from the start of the label's block. -/
theorem follows_after {name : String} {body rest : List Stmt} {p : Option Point}
    (h : P.Follows body p) (ha : Stmt.after name body = some rest) :
    P.Follows rest (some (P.start name)) := by
  induction body generalizing p with
  | nil => cases ha
  | cons s body ih =>
    rw [Stmt.after] at ha
    cases s with
    | label id =>
      split at ha
      · rename_i hn
        cases ha
        cases hn
        exact h.2
      · exact ih h.2 ha
    | unknown => exact h.elim
    | move dst src => obtain ⟨q, -, -, -, hr⟩ := h; exact ih hr ha
    | call fn var => obtain ⟨q, -, -, -, hr⟩ := h; exact ih hr ha
    | goto target => obtain ⟨q, -, -, hr⟩ := h; exact ih hr ha
    | branch cond yes no => obtain ⟨q, -, -, -, hr⟩ := h; exact ih hr ha
    | ret span => obtain ⟨q, -, -, hr⟩ := h; exact ih hr ha

end Plan

end ProcCompiler
