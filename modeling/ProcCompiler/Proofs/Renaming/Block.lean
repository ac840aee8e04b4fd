import ProcCompiler.Proofs.Block.Arrivals
import ProcCompiler.Proofs.Lowering.Ready
import ProcCompiler.Proofs.Renaming.Graph
/-!
# Blocks under other names

`b.Renamed β ν ρ b'` says that `b'` is the block `b` with the block `β t` for each block `t` that it
jumps to, the variable `ν v` for each variable `v` and the register `ρ r` for each register `r`.
What the passes of lowering do to a block they do to a renamed block under the new names.

* `Block.Renamed`: a block under other names.
* `Block.Renamed.binding?_map`: the bindings, where no two variables get the same name.
* `Block.Renamed.redirectReturn`, `Block.Renamed.mapLabel`, `Block.edgeBlock_renamed`: the passes
  that change jumps or make blocks.
* `Block.Filled.body_eq`, `Block.Filled.mentions`, `Block.Renamed.filled`: the block when nothing
  waits any more.
-/
namespace ProcCompiler

/-- The operand with its register under its name by `ρ`. -/
def Operand.rename (ρ : Reg → Reg) : Operand → Operand
  | .reg r => .reg (ρ r)
  | .param i => .param i
  | .stray k => .stray k

def Action.rename (ρ : Reg → Reg) (a : Action Reg Operand) : Action Reg Operand :=
  (a.mapRead (.rename ρ)).mapWrite ρ

def Exit.rename (β : BlockId → BlockId) (ρ : Reg → Reg) (e : Exit Operand Label) :
    Exit Operand Label :=
  (e.mapRead (.rename ρ)).mapLabel (relabel β)

/-- The instruction with its targets and registers under their names. -/
def Instr.rename (β : BlockId → BlockId) (ρ : Reg → Reg) :
    Instr Reg Operand Label → Instr Reg Operand Label
  | .action a => .action (a.rename ρ)
  | .exit e => .exit (e.rename β ρ)

/-- The instruction writes or reads the register. -/
def Instr.Mentions (x : Instr Reg Operand Label) (r : Reg) : Prop :=
  x.write? = some r ∨ x.read?.bind Operand.known? = some r

/-- The register `-1` aside, which a stray operand reads under any names. -/
theorem Instr.Mentions.rename {x : Instr Reg Operand Label} {r : Reg} (h : x.Mentions r)
    (h0 : 0 ≤ r) {β : BlockId → BlockId} {ρ : Reg → Reg} : (x.rename β ρ).Mentions (ρ r) := by
  have hwrite : (x.rename β ρ).write? = x.write?.map ρ := by rcases x with (_ | _ | _) | _ <;> rfl
  have hread : (x.rename β ρ).read? = x.read?.map (.rename ρ) := by
    rcases x with (_ | _ | _) | (_ | _ | _) <;> rfl
  rcases h with hw | hr
  · exact .inl (by rw [hwrite, hw]; rfl)
  · obtain ⟨o, ho, hor⟩ := Option.bind_eq_some_iff.mp hr
    refine .inr ?_
    rw [hread, ho]
    cases o with
    | reg s => rw [← Option.some.inj hor]; rfl
    | param i => cases hor
    | stray k => exact absurd (Option.some.inj hor ▸ h0) (by decide)

theorem Operand.rename_congr {ρ ρ' : Reg → Reg} {o : Operand}
    (h : ∀ r, o.known? = some r → ρ r = ρ' r) :
    o.rename ρ = o.rename ρ' := by
  cases o with
  | reg r => rw [rename, rename, h r rfl]
  | param i => rfl
  | stray k => rfl

theorem Action.mapRead_mapWrite {ω ω' ρ ρ' : Type} (f : ρ → ρ') (g : ω → ω') (a : Action ω ρ) :
    (a.mapWrite g).mapRead f = (a.mapRead f).mapWrite g := by
  cases a <;> rfl

theorem Action.rename_congr {ρ ρ' : Reg → Reg} {a : Action Reg Operand}
    (h : ∀ r, (Instr.action a).Mentions r → ρ r = ρ' r) : a.rename ρ = a.rename ρ' := by
  have hread : a.mapRead (Operand.rename ρ) = a.mapRead (Operand.rename ρ') :=
    mapRead_congr fun o ho =>
    Operand.rename_congr fun r hr => h r (.inr (by rw [Instr.read?, ho]; exact hr))
  rw [rename, rename, hread]
  cases a with
  | move out arg => rw [mapRead, mapWrite, mapWrite, h out (.inl rfl)]
  | call fn out arg => rw [mapRead, mapWrite, mapWrite, h out (.inl rfl)]
  | unknown code => rfl

theorem Exit.rename_congr {β : BlockId → BlockId} {ρ ρ' : Reg → Reg} {e : Exit Operand Label}
    (h : ∀ r, (Instr.exit e).Mentions r → ρ r = ρ' r) : e.rename β ρ = e.rename β ρ' := by
  have hread : e.mapRead (Operand.rename ρ) = e.mapRead (Operand.rename ρ') :=
    mapRead_congr fun o ho =>
    Operand.rename_congr fun r hr => h r (.inr (by rw [Instr.read?, ho]; exact hr))
  rw [rename, rename, hread]

theorem Exit.rename_eq_ret {β : BlockId → BlockId} {ρ : Reg → Reg} {e : Exit Operand Label} :
    e.rename β ρ = .ret ↔ e = .ret := by
  cases e <;> simp [rename, mapRead, mapLabel]

namespace Exit

variable {ρ ℓ ℓ' : Type} [DecidableEq ℓ]

theorem mapLabel_congr {f g : ℓ → ℓ'} {e : Exit ρ ℓ} (h : ∀ l ∈ e.labels, f l = g l) :
    e.mapLabel f = e.mapLabel g := by
  have hmem := fun l => Exit.mem_labels (e := e) (l := l)
  cases e with
  | jump t => rw [mapLabel, mapLabel, h t ((hmem t).mpr rfl)]
  | branch c t u =>
    rw [mapLabel, mapLabel, h t ((hmem t).mpr (.inl rfl)), h u ((hmem u).mpr (.inr rfl))]
  | ret => rfl

end Exit

namespace Block

/-- The variables that the block waits for or binds. -/
def vars (b : Block) : List Var := b.params ++ b.bindings.keys

/-- The registers of the block's instructions, and those that variables are bound to. -/
def registers (b : Block) : List Reg :=
  (b.code.flatMap fun x => x.write?.toList ++ (x.read?.bind Operand.known?).toList) ++
    b.bindings.toList.map Prod.snd

theorem mem_vars {b : Block} {v : Var} : v ∈ b.vars ↔ v ∈ b.params ∨ (b.binding? v).isSome := by
  rw [vars, List.mem_append, Std.ExtTreeMap.mem_keys, Std.ExtTreeMap.mem_iff_isSome_getElem?,
    binding?]

theorem mem_bindings {b : Block} {v : Var} {r : Reg} :
    (v, r) ∈ b.bindings.toList ↔ b.binding? v = some r :=
  Std.ExtTreeMap.mem_toList_iff_getElem?_eq_some

theorem mem_registers {b : Block} {r : Reg} :
    r ∈ b.registers ↔ (∃ x ∈ b.code, x.Mentions r) ∨ ∃ v, b.binding? v = some r := by
  simp only [registers, List.mem_append, List.mem_flatMap, Option.mem_toList, List.mem_map,
    Prod.exists, mem_bindings, Instr.Mentions, exists_eq_right]

/-- `b'` is `b` with its targets, variables and registers under their names by `β`, `ν` and `ρ`. -/
structure Renamed (β : BlockId → BlockId) (ν : Var → Var) (ρ : Reg → Reg) (b b' : Block) :
    Prop where
  params : b'.params = b.params.map ν
  body : b'.body = b.body.map (.rename ρ)
  exit : b'.exit = b.exit.map (.rename β ρ)
  binding : ∀ w s, b'.binding? w = some s ↔ ∃ v r, b.binding? v = some r ∧ w = ν v ∧ s = ρ r

/-- The bindings are finitely many, so a renaming can be checked. -/
theorem renamed_iff {β : BlockId → BlockId} {ν : Var → Var} {ρ : Reg → Reg} {b b' : Block} :
    b.Renamed β ν ρ b' ↔ b'.params = b.params.map ν ∧ b'.body = b.body.map (.rename ρ) ∧
      b'.exit = b.exit.map (.rename β ρ) ∧
      (∀ p ∈ b.bindings.toList, (ν p.1, ρ p.2) ∈ b'.bindings.toList) ∧
      ∀ q ∈ b'.bindings.toList, ∃ p ∈ b.bindings.toList, q = (ν p.1, ρ p.2) := by
  constructor
  · intro h
    refine ⟨h.params, h.body, h.exit, fun p hp => ?_, fun q hq => ?_⟩
    · exact mem_bindings.mpr ((h.binding _ _).mpr ⟨p.1, p.2, mem_bindings.mp hp, rfl, rfl⟩)
    · obtain ⟨v, r, hv, hw, hs⟩ := (h.binding _ _).mp (mem_bindings.mp hq)
      exact ⟨(v, r), mem_bindings.mpr hv, Prod.ext hw hs⟩
  · rintro ⟨hparams, hbody, hexit, hbound, hback⟩
    refine ⟨hparams, hbody, hexit, fun w s => ⟨fun hw => ?_, ?_⟩⟩
    · obtain ⟨p, hp, he⟩ := hback (w, s) (mem_bindings.mpr hw)
      obtain ⟨hw', hs'⟩ := Prod.mk.inj he
      exact ⟨p.1, p.2, mem_bindings.mp hp, hw', hs'⟩
    · rintro ⟨v, r, hv, rfl, rfl⟩
      exact mem_bindings.mp (hbound (v, r) (mem_bindings.mpr hv))

instance (β : BlockId → BlockId) (ν : Var → Var) (ρ : Reg → Reg) (b b' : Block) :
    Decidable (b.Renamed β ν ρ b') :=
  decidable_of_iff' _ renamed_iff

namespace Renamed

variable {β : BlockId → BlockId} {ν : Var → Var} {ρ : Reg → Reg} {b b' : Block}
  (h : b.Renamed β ν ρ b')

include h

/-- The binding of a variable carries over. -/
theorem binding?_map {V : Set Var} (hν : Set.InjOn ν V) (hb : ∀ v ∈ b.vars, v ∈ V) {v : Var}
    (hv : v ∈ V) :
    b'.binding? (ν v) = (b.binding? v).map ρ := by
  ext s
  rw [h.binding, Option.map_eq_some_iff]
  constructor
  · rintro ⟨w, r, hw, hwv, rfl⟩
    have hwV : w ∈ V := hb w (mem_vars.mpr (.inr (by rw [hw]; rfl)))
    rw [hν hv hwV hwv]
    exact ⟨r, hw, rfl⟩
  · rintro ⟨r, hr, rfl⟩
    exact ⟨v, r, hr, rfl, rfl⟩

theorem exitLabels (hβ : ∀ e, b.exit = some e → Set.InjOn (relabel β) {l | l ∈ e.labels}) :
    b'.exitLabels = b.exitLabels.map (·.map (relabel β)) := by
  rw [Block.exitLabels, Block.exitLabels, h.exit, Option.map_map, Option.map_map]
  apply Option.map_congr
  intro e he
  rw [Function.comp, Exit.rename, Exit.labels_mapLabel, Exit.labels_mapRead]
  · rfl
  · rw [Exit.labels_mapRead]
    exact hβ e he

theorem code : b'.code = b.code.map (.rename β ρ) := by
  rw [Block.code, Block.code, h.body, h.exit, List.map_append, List.map_map, List.map_map]
  cases b.exit <;> rfl

theorem register_mem {r : Reg} (hr : r ∈ b.registers) (h0 : 0 ≤ r) : ρ r ∈ b'.registers := by
  rw [mem_registers] at hr ⊢
  rcases hr with ⟨x, hx, hr⟩ | ⟨v, hv⟩
  · exact .inl ⟨x.rename β ρ, h.code ▸ List.mem_map_of_mem hx, hr.rename h0⟩
  · exact .inr ⟨ν v, (h.binding _ _).mpr ⟨v, r, hv, rfl, rfl⟩⟩

/-- Only the registers of the block matter. -/
theorem congr {ρ' : Reg → Reg} (hρ : ∀ r ∈ b.registers, ρ r = ρ' r) : b.Renamed β ν ρ' b' where
  params := h.params
  body := by
    rw [h.body]
    exact List.map_congr_left fun a ha => Action.rename_congr fun r hr =>
      hρ r (mem_registers.mpr (.inl ⟨_, action_mem_code ha, hr⟩))
  exit := by
    rw [h.exit]
    exact Option.map_congr fun e he => Exit.rename_congr fun r hr =>
      hρ r (mem_registers.mpr (.inl ⟨_, exit_mem_code he, hr⟩))
  binding w s := by
    rw [h.binding]
    refine exists_congr fun v => exists_congr fun r => and_congr_right fun hv => ?_
    rw [hρ r (mem_registers.mpr (.inr ⟨v, hv⟩))]

/-- The jumps may change if the targets agree under the new names. -/
theorem mapLabel {β' : BlockId → BlockId} (via via' : Label → Label)
    (hvia : ∀ e, b.exit = some e → ∀ l ∈ e.labels, via' (relabel β l) = relabel β' (via l)) :
    (b.mapLabel via).Renamed β' ν ρ (b'.mapLabel via') where
  params := h.params
  body := h.body
  exit := by
    show b'.exit.map (·.mapLabel via') = (b.exit.map (·.mapLabel via)).map (.rename β' ρ)
    rw [h.exit, Option.map_map, Option.map_map]
    apply Option.map_congr
    intro e he
    rw [Function.comp, Function.comp, Exit.rename, Exit.rename, Exit.mapRead_mapLabel,
      Exit.mapLabel_mapLabel, Exit.mapLabel_mapLabel]
    apply Exit.mapLabel_congr
    intro l hl
    rw [Exit.labels_mapRead] at hl
    exact hvia e he l hl
  binding := h.binding

/-- A return becomes a jump to the exit block of either side. -/
theorem redirectReturn {β' : BlockId → BlockId} {x x' : BlockId} (hx : β' x = x')
    (hβ : ∀ e, b.exit = some e → ∀ l ∈ e.labels, relabel β l = relabel β' l) :
    (b.redirectReturn x).Renamed β' ν ρ (b'.redirectReturn x') := by
  have hkeep : b.Renamed β' ν ρ b' := by
    have := h.mapLabel id id hβ
    rwa [mapLabel_id, mapLabel_id] at this
  by_cases he : b.exit = some .ret
  · have he' : b'.exit = some .ret := by rw [h.exit, he]; rfl
    refine ⟨?_, ?_, ?_, fun w s => ?_⟩
    · simpa using h.params
    · simpa using h.body
    · rw [exit_redirectReturn_ret he, exit_redirectReturn_ret he', ← hx]
      rfl
    · simpa using h.binding w s
  · have he' : b'.exit ≠ some .ret := by
      rw [h.exit]
      intro hret
      obtain ⟨e, hbe, hee⟩ := Option.map_eq_some_iff.mp hret
      exact he (by rw [hbe, Exit.rename_eq_ret.mp hee])
    rwa [redirectReturn_of_ne he, redirectReturn_of_ne he']

end Renamed

/-- The block of an edge under other names is the block of the edge between the renamed blocks. -/
theorem edgeBlock_renamed {β : BlockId → BlockId} {ν : Var → Var} {ρ : Reg → Reg} {t : BlockId}
    {vs : List Var} {shared shared' : Var → Reg} (hs : ∀ v ∈ vs, shared' (ν v) = ρ (shared v))
    (hn : vs.Nodup) (hn' : (vs.map ν).Nodup) : (edgeBlock vs (vs.map shared) t).Renamed β ν ρ
      (edgeBlock (vs.map ν) ((vs.map ν).map shared') (β t)) where
  params := rfl
  body := by
    have hmap : (vs.map ν).map shared' = (vs.map shared).map ρ := by
      rw [List.map_map, List.map_map]
      exact List.map_congr_left hs
    simp only [edgeBlock, hmap, List.zipIdx_map, List.map_map]
    rfl
  exit := rfl
  binding w s := by
    simp only [binding?_edgeBlock hn, binding?_edgeBlock hn']
    constructor
    · intro hw
      split at hw
      · rename_i hmem
        obtain ⟨v, hv, rfl⟩ := List.mem_map.mp hmem
        exact ⟨v, shared v, if_pos hv, rfl, by rw [← hs v hv]; exact (Option.some.inj hw).symm⟩
      · cases hw
    · rintro ⟨v, r, hv, rfl, rfl⟩
      split at hv
      · rename_i hmem
        cases hv
        rw [if_pos (List.mem_map_of_mem hmem), hs v hmem]
      · cases hv

/-- The block of an edge mentions the shared registers only. -/
theorem registers_edgeBlock {vs : List Var} (hn : vs.Nodup) {shared : Var → Reg} {t : BlockId}
    {r : Reg} (hr : r ∈ (edgeBlock vs (vs.map shared) t).registers) : ∃ v ∈ vs, r = shared v := by
  rcases mem_registers.mp hr with ⟨x, hx, hr⟩ | ⟨v, hv⟩
  · rcases mem_code.mp hx with ⟨a, ha, rfl⟩ | ⟨e, he, rfl⟩
    · obtain ⟨p, hp, rfl⟩ := List.mem_map.mp ha
      obtain ⟨v, hmem, hv⟩ := List.mem_map.mp (List.fst_mem_of_mem_zipIdx hp)
      rcases hr with hr | hr
      · cases hr
        exact ⟨v, hmem, hv.symm⟩
      · cases hr
    · cases he
      rcases hr with hr | hr <;> cases hr
  · rw [binding?_edgeBlock hn] at hv
    split at hv
    · exact ⟨v, ‹_›, (Option.some.inj hv).symm⟩
    · cases hv

end Block

/-! ## Blocks that wait for nothing any more -/

/-- The operand that a reference stands for, if it waits for nothing. -/
def Ref.operand : Ref → Operand
  | .reg r => .reg r
  | .stray k => .stray k
  | .var _ => .param 0
  | .loose => .param 0

/-- The operand when the registers `σ` have arrived. -/
def Operand.filled (params : List Var) (σ : Var → Option Reg) (o : Operand) : Operand :=
  ((o.ref params).fill σ).operand

theorem Operand.operand_ref {o : Operand} (h : o.known?.isSome) (params : List Var) :
    (o.ref params).operand = o := by
  cases o with
  | reg r => rfl
  | param i => cases h
  | stray k => rfl

/-- Filling and renaming can be done in either order. -/
theorem Operand.filled_rename {ν : Var → Var} {ρ : Reg → Reg} {params : List Var}
    {σ σ' : Var → Option Reg} (hσ : ∀ v ∈ params, σ' (ν v) = (σ v).map ρ) (o : Operand) :
    (o.rename ρ).filled (params.map ν) σ' = (o.filled params σ).rename ρ := by
  cases o with
  | reg r => rfl
  | stray k => rfl
  | param i =>
    cases hi : params[i]? with
    | none => simp [rename, filled, ref, hi, Ref.fill, Ref.operand]
    | some v =>
      have hv := hσ v (List.mem_of_getElem? hi)
      cases hs : σ v <;> simp [rename, filled, ref, hi, Ref.fill, hv, hs, Ref.operand]

/-- A filled operand reads its own register or one that arrived. -/
theorem Operand.known?_filled {params : List Var} {σ : Var → Option Reg} {o : Operand} {r : Reg}
    (h : (o.filled params σ).known? = some r) :
    o.known? = some r ∨ ∃ v ∈ params, σ v = some r := by
  cases o with
  | reg s => exact .inl h
  | stray k => exact .inl h
  | param i =>
    right
    cases hi : params[i]? with
    | none => simp [filled, ref, hi, Ref.fill, Ref.operand, known?] at h
    | some v =>
      refine ⟨v, List.mem_of_getElem? hi, ?_⟩
      cases hs : σ v with
      | none => simp [filled, ref, hi, Ref.fill, hs, Ref.operand, known?] at h
      | some s => simpa [filled, ref, hi, Ref.fill, hs, Ref.operand, known?] using h

namespace Block

variable {b b' : Block} {σ : Var → Option Reg}

/-- References to known operands say what the operands are. -/
theorem Known.body_eq (hk : b.Known) : b.bodyRefs.map (·.mapRead Ref.operand) = b.body :=
  body_of_refs fun a ha o ho => Operand.operand_ref (hk.body a ha o ho) _

/-- The instructions of a filled block that knows its operands. -/
theorem Filled.body_eq (h : Filled b b' σ) (hk : b'.Known) :
    b'.body = b.body.map (·.mapRead (.filled b.params σ)) := by
  rw [← hk.body_eq, h.body, bodyRefs, List.map_map, List.map_map]
  exact List.map_congr_left fun a _ => by
    rw [Function.comp, Function.comp, Action.mapRead_mapRead, Action.mapRead_mapRead]
    rfl

theorem Filled.exit_eq (h : Filled b b' σ) (hk : b'.Known) :
    b'.exit = b.exit.map (·.mapRead (.filled b.params σ)) := by
  rw [← exit_of_refs fun e he o ho => Operand.operand_ref (hk.exit e he o ho) _, h.exit, exitRef,
    Option.map_map, Option.map_map]
  exact Option.map_congr fun e _ => by
    rw [Function.comp, Function.comp, Exit.mapRead_mapRead, Exit.mapRead_mapRead]
    rfl

/-- The registers of a filled block are its own or have arrived. -/
theorem Filled.mentions (h : Filled b b' σ) (hk : b'.Known) {x : Instr Reg Operand Label}
    (hx : x ∈ b'.code) {r : Reg} (hr : x.Mentions r) :
    r ∈ b.registers ∨ ∃ v ∈ b.params, σ v = some r := by
  have hcode : ∃ y ∈ b.code, x.write? = y.write? ∧ x.read? = y.read?.map (.filled b.params σ) := by
    rcases mem_code.mp hx with ⟨a, ha, rfl⟩ | ⟨e, he, rfl⟩
    · rw [h.body_eq hk] at ha
      obtain ⟨c, hc, rfl⟩ := List.mem_map.mp ha
      exact ⟨_, action_mem_code hc, Action.write?_mapRead _ c, Action.read?_mapRead _ c⟩
    · rw [h.exit_eq hk] at he
      obtain ⟨y, hy, rfl⟩ := Option.map_eq_some_iff.mp he
      exact ⟨_, exit_mem_code hy, rfl, Exit.read?_mapRead _ y⟩
  obtain ⟨y, hy, hwrite, hread⟩ := hcode
  rcases hr with hr | hr
  · exact .inl (mem_registers.mpr (.inl ⟨y, hy, .inl (hwrite ▸ hr)⟩))
  · rw [hread] at hr
    obtain ⟨o', ho', hor⟩ := Option.bind_eq_some_iff.mp hr
    obtain ⟨o, ho, rfl⟩ := Option.map_eq_some_iff.mp ho'
    rcases Operand.known?_filled hor with hown | harrived
    · exact .inl (mem_registers.mpr (.inl ⟨y, hy, .inr (by rw [ho]; exact hown)⟩))
    · exact .inr harrived

/-- If what arrives is carried over, then so are the instructions that know their operands. -/
theorem Renamed.filled {β : BlockId → BlockId} {ν : Var → Var} {ρ : Reg → Reg} {c c' : Block}
    {σ' : Var → Option Reg} (h : b.Renamed β ν ρ b') (hc : Filled b c σ) (hc' : Filled b' c' σ')
    (hk : c.Known) (hk' : c'.Known) (hσ : ∀ v ∈ b.params, σ' (ν v) = (σ v).map ρ) :
    c'.body = c.body.map (.rename ρ) ∧ c'.exit = c.exit.map (.rename β ρ) := by
  have hop : Operand.filled (b.params.map ν) σ' ∘ Operand.rename ρ = Operand.rename ρ ∘
      Operand.filled b.params σ :=
    funext (Operand.filled_rename hσ)
  constructor
  · rw [hc'.body_eq hk', hc.body_eq hk, h.body, h.params, List.map_map, List.map_map]
    apply List.map_congr_left
    intro a _
    simp only [Function.comp, Action.rename]
    rw [Action.mapRead_mapWrite, Action.mapRead_mapRead, Action.mapRead_mapRead, hop]
  · rw [hc'.exit_eq hk', hc.exit_eq hk, h.exit, h.params, Option.map_map, Option.map_map]
    apply Option.map_congr
    intro e _
    simp only [Function.comp, Exit.rename]
    rw [Exit.mapRead_mapLabel, Exit.mapRead_mapRead, Exit.mapRead_mapRead, hop]

end Block

end ProcCompiler
