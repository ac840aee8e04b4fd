import ProcCompiler.Proofs.Lowering.Verified
import ProcCompiler.Proofs.Renaming.Block
/-!
# Layout under other names

The layout writes blocks in order, leaves out jumps to the block that comes next, turns labels into
offsets and numbers the registers as they appear. None of this depends on the names of blocks and
registers, as long as no two have the same name and registers for arguments stand for the same
slots. So the names are gone from the code.

* `Routine.Uses`: the registers of blocks, which are those of their code.
* `Routine.LaidAlike`: two routines with the same blocks along an order.
* `LaidAlike.chunks`, `LaidAlike.offset`: the code of the blocks and its offsets.
* `LaidAlike.resolvedCode`, `LaidAlike.locals`: the code in registers, and the registers that become
  locals.
* `LaidAlike.placedCode`, `LaidAlike.length_locals`: the same code and the same number of locals.
-/
namespace ProcCompiler

/-- The registers change by `ρ`. -/
def Instr.mapReg {γ : Type} (ρ : Reg → γ) (x : Instr Reg Reg Int) : Instr γ γ Int :=
  (x.mapRead ρ).mapWrite ρ

/-- The code of a block with its targets and registers under their names. -/
def Chunk.rename (β : BlockId → BlockId) (ρ : Reg → Reg) (c : Chunk) : Chunk :=
  ⟨β c.block, c.code.map (.rename β ρ)⟩

/-- Along the order, the blocks of `F'` have the code of the blocks of `F`, the blocks under their
names by `β` and the registers, all in `D`, under their names by `ρ`. -/
structure Routine.LaidAlike (β : BlockId → BlockId) (ρ : Reg → Reg) (D : Set Reg)
    (order : List BlockId) (F F' : Routine) : Prop where
  layable : F.Layable order
  blocks : Set.InjOn β {b | b ∈ order}
  regs : Set.InjOn ρ D
  nonneg : ∀ r ∈ D, 0 ≤ r
  body : ∀ b ∈ order, (F'.block (β b)).body = (F.block b).body.map (.rename ρ)
  exit : ∀ b ∈ order, (F'.block (β b)).exit = (F.block b).exit.map (.rename β ρ)
  mentions : ∀ b ∈ order, ∀ x ∈ (F.block b).code, ∀ r, x.Mentions r → r ∈ D
  slot : ∀ r ∈ D, F'.slot? (ρ r) = F.slot? r

/-! ## Instructions -/

/-- A call has one location under the new names if it had one under the old. -/
theorem Action.expand_rename {ρ : Reg → Reg} {D : Set Reg} (hρ : Set.InjOn ρ D)
    {a : Action Reg Operand} (ha : ∀ r, (Instr.action a : BlockInstr).Mentions r → r ∈ D) :
    (a.rename ρ).expand = a.expand.map (.rename ρ) := by
  cases a with
  | move out arg => rfl
  | unknown code => rfl
  | call fn out arg =>
    have hiff : arg.rename ρ = .reg (ρ out) ↔ arg = .reg out := by
      cases arg with
      | reg r =>
        simp only [Operand.rename, Operand.reg.injEq]
        exact hρ.eq_iff (ha r (.inr rfl)) (ha out (.inl rfl))
      | param i => simp [Operand.rename]
      | stray k => simp [Operand.rename]
    simp only [rename, mapRead, mapWrite, expand, hiff]
    split <;> rfl

/-- The parts of an action mention what the action mentions. -/
theorem mentions_expand {a c : Action Reg Operand} (hc : c ∈ a.expand) {r : Reg}
    (hr : (Instr.action c : BlockInstr).Mentions r) : (Instr.action a : BlockInstr).Mentions r := by
  cases a with
  | move out arg => rwa [List.mem_singleton.mp hc] at hr
  | unknown code => rwa [List.mem_singleton.mp hc] at hr
  | call fn out arg =>
    simp only [Action.expand] at hc
    split at hc
    · rwa [List.mem_singleton.mp hc] at hr
    · simp only [List.mem_cons, List.not_mem_nil, or_false] at hc
      rcases hc with rfl | rfl
      · exact hr
      · rcases hr with hr | hr <;> exact .inl hr

/-- An operand that reads a register of its own reads the renamed register. -/
theorem Operand.regIndex_rename {ρ : Reg → Reg} {o : Operand} (hk : o.known?.isSome)
    (h0 : ∀ r, o.known? = some r → 0 ≤ r) : (o.rename ρ).regIndex = ρ o.regIndex := by
  cases o with
  | reg r => rfl
  | param i => cases hk
  | stray k => exact absurd (h0 (-1) rfl) (by decide)

theorem Routine.operands_mapReg (ρ : Reg → Reg) (x : Instr Reg Reg Int) :
    operands (x.mapReg ρ) = (operands x).map ρ := by
  rw [operands, operands, Instr.mapReg, Instr.read?_mapWrite, Instr.read?_mapRead,
    Instr.write?_mapWrite, Instr.write?_mapRead, List.map_append]
  cases x.read? <;> cases x.write? <;> rfl

theorem Instr.mapReg_mapReg {γ : Type} (ρ : Reg → Reg) (τ : Reg → γ) (x : Instr Reg Reg Int) :
    (x.mapReg ρ).mapReg τ = x.mapReg (τ ∘ ρ) := by
  cases x with
  | action a => cases a <;> rfl
  | exit e => cases e <;> rfl

theorem Instr.mapReg_congr {γ : Type} {ρ τ : Reg → γ} {x : Instr Reg Reg Int}
    (h : ∀ r ∈ Routine.operands x, ρ r = τ r) : x.mapReg ρ = x.mapReg τ := by
  cases x with
  | action a =>
    cases a with
    | move out arg =>
      have ho : ρ out = τ out := h out (by simp [Routine.operands, write?, Action.write?])
      have ha : ρ arg = τ arg := h arg (by simp [Routine.operands, read?, Action.read?])
      simp only [mapReg, mapRead, Action.mapRead, mapWrite, Action.mapWrite, ho, ha]
    | call fn out arg =>
      have ho : ρ out = τ out := h out (by simp [Routine.operands, write?, Action.write?])
      have ha : ρ arg = τ arg := h arg (by simp [Routine.operands, read?, Action.read?])
      simp only [mapReg, mapRead, Action.mapRead, mapWrite, Action.mapWrite, ho, ha]
    | unknown code => rfl
  | exit e =>
    cases e with
    | branch c t u =>
      have hc : ρ c = τ c := h c (by simp [Routine.operands, read?, Exit.read?])
      simp only [mapReg, mapRead, Exit.mapRead, mapWrite, hc]
    | jump t => rfl
    | ret => rfl

/-! ## The registers that blocks use -/

namespace Routine

variable {f : Routine} {order : List BlockId} {r : Reg}

/-- The blocks of the order mention the register. -/
def Uses (f : Routine) (order : List BlockId) (r : Reg) : Prop :=
  ∃ b ∈ order, ∃ x ∈ (f.block b).code, x.Mentions r

theorem uses_of_flat {x : BlockInstr} (hx : x ∈ f.flat order) (hr : x.Mentions r) :
    f.Uses order r := by
  obtain ⟨b, hb, next, hx⟩ := mem_flat hx
  rcases mem_emit hx with ⟨a, ha, c, hc, rfl⟩ | ⟨e, he, rfl⟩
  · exact ⟨b, hb, _, Block.action_mem_code ha, mentions_expand hc hr⟩
  · exact ⟨b, hb, _, Block.exit_mem_code he, hr⟩

theorem Writable.mem_operands {x : BlockInstr} (h : Writable order x) (cs : List Chunk) :
    r ∈ operands (x.resolved cs) ↔ x.Mentions r := by
  have hread : x.read?.map Operand.regIndex = x.read?.bind Operand.known? := by
    cases ho : x.read? with
    | none => rfl
    | some o =>
      obtain ⟨s, hs⟩ := Option.isSome_iff_exists.mp (h.known o ho)
      rw [Option.map_some, Option.bind_some, Operand.regIndex, hs]
      rfl
  rw [operands, List.mem_append, Option.mem_toList, Option.mem_toList, Instr.read?_resolved, hread,
    Instr.write?_resolved]
  exact Or.comm

/-- The code has no other registers. -/
theorem Layable.uses_of_operand (h : f.Layable order)
    (hr : r ∈ (f.resolvedCode order).flatMap operands) :
    f.Uses order r := by
  obtain ⟨y, hy, hr⟩ := List.mem_flatMap.mp hr
  obtain ⟨x, hx, rfl⟩ := List.mem_map.mp hy
  exact uses_of_flat hx (((h.writable hx).mem_operands _).mp hr)

end Routine

namespace Routine.LaidAlike

variable {β : BlockId → BlockId} {ρ : Reg → Reg} {D : Set Reg} {order : List BlockId}
  {F F' : Routine} (h : LaidAlike β ρ D order F F')

include h

/-! ## The code of a block -/

theorem emitExit {b : BlockId} (hb : b ∈ order) {next : Option BlockId}
    (hnext : ∀ u ∈ next, u ∈ order) :
    (F'.block (β b)).emitExit (next.map β) = ((F.block b).emitExit next).map (.rename β ρ) := by
  obtain ⟨e, he, hlabels⟩ := h.layable.exit b hb
  have he' : (F'.block (β b)).exit = some (e.rename β ρ) := by rw [h.exit b hb, he]; rfl
  unfold Block.emitExit
  rw [he, he']
  cases e with
  | jump l =>
    obtain ⟨t, ht, rfl⟩ := hlabels l (by simp [Exit.labels])
    have hiff : (next.map β).map (fun n : Nat => (n : Label)) = some (β t : Label) ↔
        next.map (fun n : Nat => (n : Label)) = some (t : Label) := by
      cases next with
      | none => simp
      | some u =>
        simp only [Option.map_some, Option.some.injEq, Int.natCast_inj]
        exact h.blocks.eq_iff (hnext u rfl) ht
    simp only [Exit.rename, Exit.mapRead, Exit.mapLabel, relabel_natCast, hiff]
    split <;> rfl
  | branch c t u => rfl
  | ret => rfl

theorem emit {b : BlockId} (hb : b ∈ order) {next : Option BlockId}
    (hnext : ∀ u ∈ next, u ∈ order) :
    (F'.block (β b)).emit (next.map β) = ((F.block b).emit next).map (.rename β ρ) := by
  have hexpand : (F'.block (β b)).body.flatMap Action.expand =
      ((F.block b).body.flatMap Action.expand).map (.rename ρ) := by
    rw [h.body b hb, List.flatMap_map, List.map_flatMap]
    exact List.flatMap_congr fun a ha => Action.expand_rename h.regs fun r hr =>
      h.mentions b hb _ (Block.action_mem_code ha) r hr
  rw [Block.emit, Block.emit, h.emitExit hb hnext, hexpand, List.map_append, List.map_map,
    List.map_map]
  rfl

theorem chunks : ∀ {bs : List BlockId}, (∀ b ∈ bs, b ∈ order) →
    F'.chunks (bs.map β) = (F.chunks bs).map (.rename β ρ)
  | [], _ => rfl
  | b :: bs, hbs => by
    have hnext : ∀ u ∈ bs.head?, u ∈ order := fun u hu =>
      hbs u (List.mem_cons_of_mem b (List.mem_of_mem_head? hu))
    rw [List.map_cons, Routine.chunks, Routine.chunks, List.map_cons, List.head?_map,
      h.emit (hbs b List.mem_cons_self) hnext, chunks fun c hc => hbs c (List.mem_cons_of_mem b hc)]
    rfl

/-- A block has the same offset. -/
theorem offset {t : BlockId} (ht : t ∈ order) : ∀ {bs : List BlockId}, (∀ b ∈ bs, b ∈ order) →
    offset? ((F.chunks bs).map (.rename β ρ)) (β t : Label) = offset? (F.chunks bs) (t : Label)
  | [], _ => rfl
  | b :: bs, hbs => by
    have hiff : (β b : Label) = (β t : Label) ↔ (b : Label) = (t : Label) := by
      rw [Int.natCast_inj, Int.natCast_inj]
      exact h.blocks.eq_iff (hbs b List.mem_cons_self) ht
    simp only [Routine.chunks, List.map_cons, offset?, Chunk.rename, List.length_map, hiff]
    rw [← offset ht fun c hc => hbs c (List.mem_cons_of_mem b hc)]

/-! ## The whole code -/

theorem flat : F'.flat (order.map β) = (F.flat order).map (.rename β ρ) := by
  rw [Routine.flat, Routine.flat, h.chunks fun _ hb => hb, List.flatMap_map, List.map_flatMap]
  rfl

theorem mem_of_uses {r : Reg} (hr : F.Uses order r) : r ∈ D := by
  obtain ⟨b, hb, x, hx, hr⟩ := hr
  exact h.mentions b hb x hx r hr

/-- Under the new names an instruction resolves to the same offsets and the renamed registers. -/
theorem resolved {x : BlockInstr} (hx : x ∈ F.flat order) :
    (x.rename β ρ).resolved
      ((F.chunks order).map (.rename β ρ)) = (x.resolved (F.chunks order)).mapReg ρ := by
  have hw := h.layable.writable hx
  have hread : ∀ o, x.read? = some o → (o.rename ρ).regIndex = ρ o.regIndex := fun o ho =>
    Operand.regIndex_rename (hw.known o ho) fun r hr =>
      h.nonneg r (h.mem_of_uses (uses_of_flat hx (.inr (by rw [ho]; exact hr))))
  have hlabel : ∀ l ∈ x.labels, offset? ((F.chunks order).map (.rename β ρ)) (relabel β l) =
      offset? (F.chunks order) l := by
    intro l hl
    obtain ⟨t, ht, rfl⟩ := hw.target l hl
    exact h.offset ht fun _ hb => hb
  cases x with
  | action a =>
    cases a with
    | move out arg =>
      show Instr.action (.move (ρ out) (arg.rename ρ).regIndex) = _
      rw [hread arg rfl]
      rfl
    | call fn out arg =>
      show Instr.action (.call fn (ρ out) (arg.rename ρ).regIndex) = _
      rw [hread arg rfl]
      rfl
    | unknown code => rfl
  | exit e =>
    have hmem := fun l => Exit.mem_labels (e := e) (l := l)
    cases e with
    | jump t =>
      show Instr.exit (.jump (((offset? _ (relabel β t)).getD 0 : Nat) : Int)) = _
      rw [hlabel t ((hmem t).mpr rfl)]
      rfl
    | branch c t u =>
      show Instr.exit
          (.branch (c.rename ρ).regIndex (((offset? _ (relabel β t)).getD 0 : Nat) : Int)
        (((offset? _ (relabel β u)).getD 0 : Nat) : Int)) = _
      rw [hread c rfl, hlabel t ((hmem t).mpr (.inl rfl)), hlabel u ((hmem u).mpr (.inr rfl))]
      rfl
    | ret => rfl

theorem resolvedCode : F'.resolvedCode (order.map β) = (F.resolvedCode order).map (.mapReg ρ) := by
  rw [Routine.resolvedCode, Routine.resolvedCode, h.flat, h.chunks fun _ hb => hb, List.map_map,
    List.map_map]
  exact List.map_congr_left fun x hx => h.resolved hx

theorem operands_mem {r : Reg} (hr : r ∈ (F.resolvedCode order).flatMap operands) : r ∈ D :=
  h.mem_of_uses (h.layable.uses_of_operand hr)

/-- The registers that become locals, in the same order. -/
theorem locals :
    F'.locals (F'.resolvedCode (order.map β)) = (F.locals (F.resolvedCode order)).map ρ := by
  have hops : (F'.resolvedCode (order.map β)).flatMap operands =
      ((F.resolvedCode order).flatMap operands).map ρ := by
    rw [h.resolvedCode, List.flatMap_map, List.map_flatMap]
    exact List.flatMap_congr fun y _ => operands_mapReg ρ y
  have hfilter :
      (((F.resolvedCode order).flatMap operands).map ρ).filter (fun r => (F'.slot? r).isNone) =
      (((F.resolvedCode order).flatMap operands).filter fun r => (F.slot? r).isNone).map ρ := by
    rw [List.filter_map]
    congr 1
    exact List.filter_congr fun r hr => by rw [Function.comp, h.slot r (h.operands_mem hr)]
  rw [Routine.locals, Routine.locals, hops, hfilter, eraseDups_map_of_injOn]
  exact h.regs.mono fun r hr => h.operands_mem (List.mem_of_mem_filter hr)

theorem length_locals : (F'.locals (F'.resolvedCode (order.map β))).length =
    (F.locals (F.resolvedCode order)).length := by
  rw [h.locals, List.length_map]

/-- A register has the same machine register. -/
theorem place {r : Reg} (hr : r ∈ D) : F'.place (F'.locals (F'.resolvedCode (order.map β))) (ρ r) =
    F.place (F.locals (F.resolvedCode order)) r := by
  have hlocals : ∀ s ∈ F.locals (F.resolvedCode order), s ∈ D := by
    intro s hs
    rw [Routine.locals, List.mem_eraseDups] at hs
    exact h.operands_mem (List.mem_of_mem_filter hs)
  rw [Routine.place, Routine.place, h.slot r hr, h.locals,
    idxOf_map_of_inj fun s hs heq => h.regs (hlocals s hs) hr heq]

/-- The code is the same. -/
theorem placedCode : F'.placedCode (order.map β) = F.placedCode order := by
  have hcode : ∀ (f : Routine) (bs : List BlockId), f.placedCode bs =
      (f.resolvedCode bs).map (.mapReg (f.place (f.locals (f.resolvedCode bs)))) := fun _ _ => rfl
  rw [hcode, hcode, h.resolvedCode, List.map_map]
  apply List.map_congr_left
  intro y hy
  rw [Function.comp, Instr.mapReg_mapReg, ← h.resolvedCode]
  exact Instr.mapReg_congr fun r hr => h.place (h.operands_mem (List.mem_flatMap.mpr ⟨y, hy, hr⟩))

/-- The jumps lead along the order under the new names. -/
theorem layable_of_known (hk : ∀ b ∈ order, (F'.block (β b)).Known) : F'.Layable (order.map β) where
  known b hb := by
    obtain ⟨c, hc, rfl⟩ := List.mem_map.mp hb
    exact hk c hc
  exit b hb := by
    obtain ⟨c, hc, rfl⟩ := List.mem_map.mp hb
    obtain ⟨e, he, hlabels⟩ := h.layable.exit c hc
    refine ⟨e.rename β ρ, by rw [h.exit c hc, he]; rfl, fun l hl => ?_⟩
    obtain ⟨k, hk, rfl⟩ := Exit.mem_labels_mapLabel.mp hl
    rw [Exit.labels_mapRead] at hk
    obtain ⟨t, ht, rfl⟩ := hlabels k hk
    exact ⟨β t, List.mem_map_of_mem ht, rfl⟩

end Routine.LaidAlike

end ProcCompiler
