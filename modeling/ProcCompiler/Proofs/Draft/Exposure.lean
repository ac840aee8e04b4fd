import ProcCompiler.Proofs.Draft.Procedure
import ProcCompiler.Proofs.Lowering.Complete
/-!
# What a body reads first

A path through the statements of a drafted body is a path through its blocks. So a variable is read
before it is written on some path through the body exactly if it is exposed at the first block of
the routine.

* `Planned.exposed_iff`: exposure at the start of a block, point by point.
* `Planned.exposed_of_stmt`, `Planned.readFrom_of_exposed`: the two directions.
* `Planned.provided_iff`: the arguments provide what the body reads first.
-/
namespace ProcCompiler

namespace Plan

variable {P : Plan} {later : BlockId → Prop} {q : Point} {v : Var}

/-- From the point on, the variable is read before it is written: in the listing of the block, or
later, after an exit to one of the given blocks. -/
def ExposedAt (P : Plan) (later : BlockId → Prop) (q : Point) (v : Var) : Prop :=
  Listing.ReadsFirst v ((P.sketch q.block).body.drop q.index) (P.sketch q.block).exit ∨
    (∀ a ∈ (P.sketch q.block).body.drop q.index, a.write? ≠ some v) ∧
      ∃ e, (P.sketch q.block).exit = some e ∧ ∃ t : BlockId, (t : Label) ∈ e.labels ∧ later t

theorem Acts.exposedAt_iff {a : Action Var Var} (h : P.Acts q a) :
    P.ExposedAt later q v ↔ a.read? = some v ∨ a.write? ≠ some v ∧ P.ExposedAt later
      (next q) v := by
  have hdrop : (P.sketch q.block).body.drop q.index = a ::
      (P.sketch q.block).body.drop (q.index + 1) := by
    obtain ⟨hlt, ha⟩ := List.getElem?_eq_some_iff.mp h
    rw [← ha]
    exact List.drop_eq_getElem_cons hlt
  simp only [ExposedAt, next, hdrop, Listing.ReadsFirst, List.mem_cons, forall_eq_or_imp]
  tauto

theorem Leaves.exposedAt_iff {e : Exit Var Label} (h : P.Leaves q e) :
    P.ExposedAt later q v ↔ e.read? = some v ∨ ∃ t : BlockId, (t : Label) ∈ e.labels ∧ later t := by
  have hdrop : (P.sketch q.block).body.drop q.index = [] := by rw [← h.1]; exact List.drop_length
  simp [ExposedAt, hdrop, h.2, Listing.ReadsFirst]

end Plan

namespace Planned

variable {table : ForeignTable} {x : ProcDecl} {f : Routine} {slots : List Slot} {P : Plan}

open Plan

theorem exit_labels (h : Planned table x f slots P) {b : BlockId} {e : Exit Operand Label}
    (he : (f.block b).exit = some e) : ∃ s, (P.sketch b).exit = some s ∧ s.labels = e.labels := by
  have hx := (h.renders b).exit
  rw [Block.exitRef, he] at hx
  obtain ⟨s, hs, hse⟩ := Option.map_eq_some_iff.mp hx.symm
  refine ⟨s, hs, ?_⟩
  rw [← Exit.labels_mapRead (f.block b).located, hse, Exit.labels_mapRead]

theorem exists_exit (h : Planned table x f slots P) {b : BlockId} {s : Exit Var Label}
    (hs : (P.sketch b).exit = some s) : ∃ e, (f.block b).exit = some e ∧ e.labels = s.labels := by
  have hx := (h.renders b).exit
  rw [hs] at hx
  cases he : (f.block b).exit with
  | none => rw [Block.exitRef, he] at hx; cases hx
  | some e =>
    obtain ⟨s', hs', hl⟩ := h.exit_labels he
    cases hs.symm.trans hs'
    exact ⟨e, rfl, hl.symm⟩

theorem free_iff (h : Planned table x f slots P) {b : BlockId} {v : Var} :
    (f.block b).binding? v = none ↔ ∀ a ∈ (P.sketch b).body, a.write? ≠ some v := by
  rw [(h.renders b).binding?_eq_none]
  simp [Listing.Writes]

/-- A variable is exposed at a block if it is at the start of its listing. -/
theorem exposed_iff (h : Planned table x f slots P) {b : BlockId} {v : Var} :
    f.Exposed b v ↔ P.ExposedAt (f.Exposed · v) { block := b, index := 0 } v := by
  simp only [ExposedAt, List.drop_zero]
  constructor
  · intro hx
    cases hx with
    | here hv => exact .inl (((h.renders b).params v).mp hv)
    | there he ht hb ht' =>
      obtain ⟨s, hs, hl⟩ := h.exit_labels he
      exact .inr ⟨h.free_iff.mp hb, s, hs, _, by rw [hl]; exact ht, ht'⟩
  · rintro (hr | ⟨hw, s, hs, t, ht, hx⟩)
    · exact .here (((h.renders b).params v).mpr hr)
    · obtain ⟨e, he, hl⟩ := h.exists_exit hs
      exact .there he (by rw [hl]; exact ht) (h.free_iff.mpr hw) hx

/-- What a path through the statements reads first is exposed at their point. -/
theorem exposed_of_stmt (h : Planned table x f slots P) {rest : List Stmt} {name : String}
    (hx : Stmt.Exposed x.body rest name) :
    ∀ {q : Point}, P.Follows rest (some q) → P.ExposedAt (f.Exposed · (P.var name)) q
      (P.var name) := by
  induction hx with
  | @read s rest name hr =>
    intro q hf
    cases s with
    | move dst src =>
      obtain ⟨q, hq, -, ha, -⟩ := hf
      cases hq; cases hr
      exact ha.exposedAt_iff.mpr (.inl rfl)
    | call fn var =>
      obtain ⟨q, hq, -, ha, -⟩ := hf
      cases hq; cases hr
      exact ha.exposedAt_iff.mpr (.inl rfl)
    | branch cond yes no =>
      obtain ⟨q, hq, -, hl, -⟩ := hf
      cases hq; cases hr
      exact hl.exposedAt_iff.mpr (.inl rfl)
    | _ => cases hr
  | @next s rest name ht hw _ ih =>
    intro q hf
    have hne : ∀ {y : String}, y ∈ P.names → s.writes? = some y →
        some (P.var y) ≠ some (P.var name) :=
      fun hy hs he => hw (by rw [hs, (var_inj hy).mp (Option.some.inj he)])
    cases s with
    | label id =>
      exact (hf.1 q rfl).exposedAt_iff.mpr
        (.inr ⟨_, List.mem_singleton.mpr rfl, h.exposed_iff.mpr (ih hf.2)⟩)
    | move dst src =>
      obtain ⟨q, hq, hm, ha, hf⟩ := hf
      cases hq
      exact ha.exposedAt_iff.mpr (.inr ⟨hne hm.1 rfl, ih hf⟩)
    | call fn var =>
      obtain ⟨q, hq, hm, ha, hf⟩ := hf
      cases hq
      exact ha.exposedAt_iff.mpr (.inr ⟨hne hm rfl, ih hf⟩)
    | unknown => exact hf.elim
    | _ => cases ht
  | @jump s rest target l name hl ha _ ih =>
    intro q hf
    have hx := h.exposed_iff.mpr (ih (follows_after h.follows ha))
    cases s with
    | goto t =>
      obtain ⟨q, hq, hleave, -⟩ := hf
      cases hq
      obtain rfl : l = t.name := List.mem_singleton.mp hl
      exact hleave.exposedAt_iff.mpr (.inr ⟨_, List.mem_singleton.mpr rfl, hx⟩)
    | branch cond yes no =>
      obtain ⟨q, hq, -, hleave, -⟩ := hf
      cases hq
      refine hleave.exposedAt_iff.mpr (.inr ⟨P.block l, ?_, hx⟩)
      rw [Exit.mem_labels]
      rcases List.mem_pair.mp hl with rfl | rfl
      · exact .inl rfl
      · exact .inr rfl
    | _ => cases hl

/-- The statements read the variable before they write it. -/
def ReadFirst (x : ProcDecl) (P : Plan) (v : Var) (rest : List Stmt) : Prop :=
  ∃ name, P.var name = v ∧ Stmt.Exposed x.body rest name

/-- The variable is read first wherever the body starts the block. -/
def ReadFrom (x : ProcDecl) (P : Plan) (v : Var) (b : BlockId) : Prop :=
  ∀ rest, rest <:+ x.body → P.Follows rest (some { block := b, index := 0 }) → ReadFirst x P v rest

/-- What is exposed at a point is read first by its statements. -/
theorem readFirst_of_exposedAt (h : Planned table x f slots P) (hl : Stmt.LabelsDefined x.body)
    {v : Var} {rest : List Stmt} (hs : rest <:+ x.body) {q : Point} (hf : P.Follows rest (some q))
    (hq : P.ExposedAt (ReadFrom x P v) q v) : ReadFirst x P v rest := by
  induction rest generalizing q with
  | nil =>
    obtain hr | ⟨t, ht, -⟩ := (hf q rfl).exposedAt_iff.mp hq
    · cases hr
    · cases ht
  | cons s rest ih =>
    have hrest : rest <:+ x.body := (List.suffix_cons s rest).trans hs
    have hgoto : ∀ {l : String}, l ∈ s.uses → ReadFrom x P v (P.block l) →
        ReadFirst x P v (s :: rest) := by
      intro l hu hx
      obtain ⟨target, ha⟩ := hl.exists_after hs hu
      obtain ⟨name, hv, hn⟩ := hx target (Stmt.after_suffix ha) (follows_after h.follows ha)
      exact ⟨name, hv, .jump hu ha hn⟩
    cases s with
    | label id =>
      obtain hr | ⟨t, ht, hx⟩ := (hf.1 q rfl).exposedAt_iff.mp hq
      · cases hr
      · obtain rfl : t = P.block id.name := Int.ofNat.inj (List.mem_singleton.mp ht)
        obtain ⟨name, hv, hn⟩ := hx rest hrest hf.2
        exact ⟨name, hv, .next rfl (by simp [Stmt.writes?]) hn⟩
    | move dst src =>
      obtain ⟨q, hq', -, ha, hf⟩ := hf
      cases hq'
      obtain hr | ⟨hw, hq⟩ := ha.exposedAt_iff.mp hq
      · exact ⟨src.name, Option.some.inj hr, .read rfl⟩
      · obtain ⟨name, hv, hn⟩ := ih hrest hf hq
        exact ⟨name, hv, .next rfl (fun he => hw (by rw [← hv, ← Option.some.inj he]; rfl)) hn⟩
    | call fn var =>
      obtain ⟨q, hq', -, ha, hf⟩ := hf
      cases hq'
      obtain hr | ⟨hw, hq⟩ := ha.exposedAt_iff.mp hq
      · exact ⟨var.name, Option.some.inj hr, .read rfl⟩
      · obtain ⟨name, hv, hn⟩ := ih hrest hf hq
        exact ⟨name, hv, .next rfl (fun he => hw (by rw [← hv, ← Option.some.inj he]; rfl)) hn⟩
    | goto t =>
      obtain ⟨q, hq', hleave, -⟩ := hf
      cases hq'
      obtain hr | ⟨b, hb, hx⟩ := hleave.exposedAt_iff.mp hq
      · cases hr
      · obtain rfl : b = P.block t.name := Int.ofNat.inj (List.mem_singleton.mp hb)
        exact hgoto (List.mem_singleton.mpr rfl) hx
    | branch cond yes no =>
      obtain ⟨q, hq', -, hleave, -⟩ := hf
      cases hq'
      obtain hr | ⟨b, hb, hx⟩ := hleave.exposedAt_iff.mp hq
      · exact ⟨cond.name, Option.some.inj hr, .read rfl⟩
      · rcases Exit.mem_labels.mp hb with hb | hb
        · obtain rfl : b = P.block yes.name := Int.ofNat.inj hb
          exact hgoto (List.mem_cons_self ..) hx
        · obtain rfl : b = P.block no.name := Int.ofNat.inj hb
          exact hgoto (List.mem_cons_of_mem _ (List.mem_singleton.mpr rfl)) hx
    | ret span =>
      obtain ⟨q, hq', hleave, -⟩ := hf
      cases hq'
      obtain hr | ⟨b, hb, -⟩ := hleave.exposedAt_iff.mp hq
      · cases hr
      · cases hb
    | unknown => exact hf.elim

/-- What is exposed at a block is read first by the statements that start there. -/
theorem readFrom_of_exposed (h : Planned table x f slots P) (hl : Stmt.LabelsDefined x.body)
    {b : BlockId} {v : Var} (hx : f.Exposed b v) : ReadFrom x P v b := by
  induction hx with
  | @here b v hv =>
    exact fun rest hs hf =>
      h.readFirst_of_exposedAt hl hs hf (.inl (((h.renders b).params v).mp hv))
  | @there b t v e he ht hfree _ ih =>
    obtain ⟨s, hs, hl'⟩ := h.exit_labels he
    have hw := h.free_iff.mp hfree
    exact fun rest hsuf hf => h.readFirst_of_exposedAt hl hsuf hf
      (.inr ⟨hw, s, hs, t, by rw [hl']; exact ht, ih⟩)

/-- The arguments provide what the routine waits for exactly if they provide what the body reads
first. -/
theorem provided_iff (h : Planned table x f slots P) (hl : Stmt.LabelsDefined x.body) :
    (∀ v, f.Exposed f.route v → v ∈ slots.map Slot.var) ↔
      ∀ name, Stmt.Exposed x.body x.body name → name ∈ x.args.map (·.name.name) := by
  have hslots : slots.map Slot.var = x.args.map fun a => P.var a.name.name := by
    rw [h.slots, List.map_map]; rfl
  rw [h.route, hslots]
  constructor
  · intro hp name hx
    obtain ⟨a, ha, hv⟩ :=
      List.mem_map.mp (hp _ (h.exposed_iff.mpr (h.exposed_of_stmt hx h.follows)))
    exact List.mem_map.mpr ⟨a, ha, (var_inj (h.args a ha)).mp hv⟩
  · intro hp v hx
    obtain ⟨name, rfl, hn⟩ := h.readFrom_of_exposed hl hx x.body List.suffix_rfl h.follows
    obtain ⟨a, ha, hv⟩ := List.mem_map.mp (hp name hn)
    exact List.mem_map.mpr ⟨a, ha, by rw [hv]⟩

end Planned

end ProcCompiler
