import ProcCompiler.Proofs.Renaming.Block
/-!
# Routines with the same reached part

Two routines are alike if the reached blocks of one are those of the other under other names, no two
blocks, variables or registers of the first having one name in the second. They may differ in
everything that nothing reaches. Alike routines have the same flow graph, stay alike when the exit
block is added, and need the same.

* `Routine.Alike`: the relation.
* `Alike.graph`: the reached parts of the graphs are the same.
* `Alike.addExit`: the routines with a single exit are alike.
* `Alike.sites_renamed`, `Alike.of_renamed`: the needs are found in the same order.
-/
namespace ProcCompiler

/-! ## Renamings that go on -/

namespace Routine

variable {f f' : Routine} {β : Nat → Nat}

/-- The names `β` of the blocks of `f`; blocks that are added to `f` have the names of those added
to `f'`. -/
def extendBlocks (f f' : Routine) (β : Nat → Nat) (b : Nat) : Nat :=
  if b < f.blocks.size then β b else f'.blocks.size + (b - f.blocks.size)

theorem extendBlocks_of_lt {b : Nat} (h : b < f.blocks.size) : f.extendBlocks f' β b = β b :=
  if_pos h

theorem extendBlocks_add (i : Nat) :
    f.extendBlocks f' β (f.blocks.size + i) = f'.blocks.size + i := by
  rw [extendBlocks, if_neg (by omega), Nat.add_sub_cancel_left]

theorem injOn_extendBlocks {S : Set Nat} (hβ : Set.InjOn β S)
    (hS : ∀ b ∈ S, b < f.blocks.size ∧ β b < f'.blocks.size) :
    Set.InjOn (f.extendBlocks f' β) {b | b ∈ S ∨ f.blocks.size ≤ b} := by
  rintro b (hb | hb) c (hc | hc) he
  · rw [extendBlocks_of_lt (hS b hb).1, extendBlocks_of_lt (hS c hc).1] at he
    exact hβ hb hc he
  · obtain ⟨i, rfl⟩ := Nat.exists_eq_add_of_le hc
    rw [extendBlocks_of_lt (hS b hb).1, extendBlocks_add] at he
    have := (hS b hb).2
    omega
  · obtain ⟨i, rfl⟩ := Nat.exists_eq_add_of_le hb
    rw [extendBlocks_of_lt (hS c hc).1, extendBlocks_add] at he
    have := (hS c hc).2
    omega
  · obtain ⟨i, rfl⟩ := Nat.exists_eq_add_of_le hb
    obtain ⟨j, rfl⟩ := Nat.exists_eq_add_of_le hc
    rw [extendBlocks_add, extendBlocks_add] at he
    omega

end Routine

theorem injOn_relabel {β : BlockId → BlockId} {S : Set BlockId} (hβ : Set.InjOn β S) :
    Set.InjOn (relabel β) {l | ∃ t ∈ S, l = (t : Label)} := by
  rintro l ⟨t, ht, rfl⟩ m ⟨u, hu, rfl⟩ he
  rw [relabel_natCast, relabel_natCast] at he
  rw [hβ ht hu (Int.ofNat.inj he)]

/-- Blocks with the exits of renamed blocks lead to the renamed blocks. -/
theorem Routine.Closed.leads_renamed {f f' : Routine} (hf : f.Closed) {β : BlockId → BlockId}
    {ν : Var → Var} {ρ : Reg → Reg} {b : BlockId} {c c' : Block}
    (hβ : Set.InjOn β {b | b ∈ f.graph.order}) (hb : b ∈ f.graph.order) (hr : c.Renamed β ν ρ c')
    (hc : (f.block b).exitLabels = c.exitLabels) (hc' : (f'.block (β b)).exitLabels = c'.exitLabels)
    (hroute : f'.route = β f.route) :
    f'.leads (β b) = (f.leads b).map (relabel β) := by
  have hinj : ∀ e, c.exit = some e → Set.InjOn (relabel β) {l | l ∈ e.labels} := by
    intro e he
    apply (injOn_relabel hβ).mono
    intro l hl
    have hlead : l ∈ f.leads b := by
      rw [leads_eq, hc, Block.exitLabels, he]
      exact hl
    obtain ⟨t, ht, -, hto, -⟩ := hf.exists_succ hb hlead
    exact ⟨t, hto, ht⟩
  rw [leads_eq, leads_eq, hc, hc', hr.exitLabels hinj, hroute]
  cases c.exitLabels <;> rfl

namespace Block

/-- What an exit mentions is what it reads. -/
theorem registers_of_same {b c : Block} {r : Reg} (hbody : c.body = b.body)
    (hexit : ∀ e, c.exit = some e → (∃ o, e.read? = some o) → ∃ e', b.exit = some e' ∧
      e'.read? = e.read?)
    (hbind : c.bindings = b.bindings) (h : r ∈ c.registers) : r ∈ b.registers := by
  rw [mem_registers] at h ⊢
  rcases h with ⟨x, hx, hr⟩ | ⟨v, hv⟩
  · rcases mem_code.mp hx with ⟨a, ha, rfl⟩ | ⟨e, he, rfl⟩
    · exact .inl ⟨_, action_mem_code (hbody ▸ ha), hr⟩
    · rcases hr with hr | hr
      · cases hr
      · obtain ⟨o, ho, hor⟩ := Option.bind_eq_some_iff.mp hr
        obtain ⟨e', he', hread⟩ := hexit e he ⟨o, ho⟩
        refine .inl ⟨_, exit_mem_code he', .inr ?_⟩
        rw [Instr.read?, hread]
        exact hr
  · exact .inr ⟨v, by rw [binding?, ← hbind]; exact hv⟩

theorem registers_redirectReturn {b : Block} {x : BlockId} {r : Reg}
    (h : r ∈ (b.redirectReturn x).registers) :
    r ∈ b.registers := by
  by_cases hr : b.exit = some .ret
  · refine registers_of_same (body_redirectReturn x b) ?_ (bindings_redirectReturn x b) h
    rintro e he ⟨o, ho⟩
    rw [exit_redirectReturn_ret hr] at he
    cases he
    cases ho
  · rwa [redirectReturn_of_ne hr] at h

theorem registers_mapLabel {b : Block} {via : Label → Label} {r : Reg}
    (h : r ∈ (b.mapLabel via).registers) :
    r ∈ b.registers := by
  refine registers_of_same (c := b.mapLabel via) rfl ?_ rfl h
  rintro e he -
  obtain ⟨e', he', rfl⟩ := Option.map_eq_some_iff.mp he
  exact ⟨e', he', by cases e' <;> rfl⟩

@[simp] theorem vars_redirectReturn (x : BlockId) (b : Block) :
    (b.redirectReturn x).vars = b.vars := by
  rw [vars, vars, params_redirectReturn, bindings_redirectReturn]

/-- A block that does nothing but return has nothing to rename. -/
theorem renamed_ret (β : BlockId → BlockId) (ν : Var → Var) (ρ : Reg → Reg) :
    Renamed β ν ρ { exit := some .ret } { exit := some .ret } where
  params := rfl
  body := rfl
  exit := rfl
  binding w s := by simp [binding?]

end Block

/-! ## Alike routines -/

/-- The reached blocks of `f'` are those of `f`, the blocks under their names by `β`, the variables,
all in `V`, under their names by `ν` and the registers, all in `R`, under their names by `ρ`. -/
structure Routine.Alike (β : BlockId → BlockId) (ν : Var → Var) (ρ : Reg → Reg) (V : Set Var)
    (R : Set Reg) (f f' : Routine) : Prop where
  ready : f.Ready
  ready' : f'.Ready
  blocks : Set.InjOn β {b | b ∈ f.graph.order}
  vars : Set.InjOn ν V
  regs : Set.InjOn ρ R
  start : β entry = entry
  route : f'.route = β f.route
  block : ∀ b ∈ f.graph.order, (f.block b).Renamed β ν ρ (f'.block (β b))
  vars_mem : ∀ b ∈ f.graph.order, ∀ v ∈ (f.block b).vars, v ∈ V
  regs_mem : ∀ b ∈ f.graph.order, ∀ r ∈ (f.block b).registers, r ∈ R
  made : ∀ r ∈ R, 0 ≤ r ∧ r < f.regs.size ∧ ρ r < f'.regs.size

namespace Routine.Alike

variable {β : BlockId → BlockId} {ν : Var → Var} {ρ : Reg → Reg} {V : Set Var} {R : Set Reg}
  {f f' : Routine} (h : Alike β ν ρ V R f f')

include h

/-- The reached parts of the graphs are the same. -/
theorem graph : f.graph.Renamed β f'.graph :=
  h.ready.closed.graph_renamed h.ready'.closed h.blocks h.start fun b hb =>
    h.ready.closed.leads_renamed h.blocks hb (h.block b hb) rfl rfl h.route

theorem lt {b : BlockId} (hb : b ∈ f.graph.order) : b < f.blocks.size ∧ β b < f'.blocks.size :=
  ⟨h.ready.closed.lt_of_mem_order hb, h.ready'.closed.lt_of_mem_order (h.graph.mem_order hb)⟩

/-- No two blocks that are reached or added have the same name. -/
theorem injOn_blocks : Set.InjOn (f.extendBlocks f' β)
    {b | b ∈ f.graph.order ∨ f.blocks.size ≤ b} :=
  injOn_extendBlocks h.blocks fun _ hb => h.lt hb

theorem exit_lt {b : BlockId} (hb : b ∈ f.graph.order) {e : Exit Operand Label}
    (he : (f.block b).exit = some e) {l : Label} (hl : l ∈ e.labels) :
    ∃ t ∈ f.graph.order, l = (t : Label) := by
  obtain ⟨t, ht, -, hto, -⟩ := h.ready.closed.exists_succ hb (l := l) (by rw [leads, he]; exact hl)
  exact ⟨t, hto, ht⟩

omit h in
/-- A reached block of the routine with a single exit is an old one or the exit. -/
theorem mem_order_addExit (hf : f.Closed) {b : BlockId}
    (hb : b ∈ (f.addExit f.graph).1.graph.order) :
    b ∈ f.graph.order ∨ b = f.blocks.size := by
  have hlt := hf.addExit.lt_of_mem_order hb
  rw [size_addExit] at hlt
  rcases Nat.lt_succ_iff_lt_or_eq.mp hlt with hlt | heq
  · exact .inl ((hf.mem_order_addExit hlt).mp hb)
  · exact .inr heq

omit h in
theorem block_addExit_of_mem (hf : f.Closed) {b : BlockId} (hb : b ∈ f.graph.order) :
    (f.addExit f.graph).1.block b = (f.block b).redirectReturn f.blocks.size := by
  rw [block_addExit (hf.lt_of_mem_order hb), if_pos hb]

/-- The routines with a single exit are alike. -/
theorem addExit : Alike (f.extendBlocks f' β) ν ρ V R (f.addExit f.graph).1
    (f'.addExit f'.graph).1 where
  ready := h.ready.addExit
  ready' := h.ready'.addExit
  blocks := h.injOn_blocks.mono fun b hb => by
    rcases mem_order_addExit h.ready.closed hb with hb | hb
    · exact .inl hb
    · exact .inr (Nat.le_of_eq hb.symm)
  vars := h.vars
  regs := h.regs
  start := by rw [extendBlocks_of_lt (h.lt h.ready.closed.entry_mem_order).1, h.start]
  route := by
    rw [route_addExit, route_addExit, extendBlocks_of_lt (h.lt h.ready.route_mem_order).1, h.route]
  block b hb := by
    rcases mem_order_addExit h.ready.closed hb with hb | rfl
    · rw [extendBlocks_of_lt (h.lt hb).1, block_addExit_of_mem h.ready.closed hb,
        block_addExit_of_mem h.ready'.closed (h.graph.mem_order hb)]
      refine (h.block b hb).redirectReturn (extendBlocks_add 0) fun e he l hl => ?_
      obtain ⟨t, ht, rfl⟩ := h.exit_lt hb he hl
      rw [relabel_natCast, relabel_natCast, extendBlocks_of_lt (h.lt ht).1]
    · have hexit : f.extendBlocks f' β f.blocks.size = f'.blocks.size := extendBlocks_add 0
      rw [hexit, block_addExit_exit, block_addExit_exit]
      exact Block.renamed_ret _ ν ρ
  vars_mem b hb v hv := by
    rcases mem_order_addExit h.ready.closed hb with hb | rfl
    · rw [block_addExit_of_mem h.ready.closed hb, Block.vars_redirectReturn] at hv
      exact h.vars_mem b hb v hv
    · rw [block_addExit_exit] at hv
      cases hv
  regs_mem b hb r hr := by
    rcases mem_order_addExit h.ready.closed hb with hb | rfl
    · rw [block_addExit_of_mem h.ready.closed hb] at hr
      exact h.regs_mem b hb r (Block.registers_redirectReturn hr)
    · rw [block_addExit_exit] at hr
      cases hr
  made := by simpa using h.made

end Routine.Alike

/-! ## Needs -/

/-- The site with its block and variable under their names. -/
def Site.rename (β : BlockId → BlockId) (ν : Var → Var) (s : Site) : Site := ⟨β s.block, ν s.var⟩

theorem injOn_siteRename {β : BlockId → BlockId} {ν : Var → Var} {B : Set BlockId} {V : Set Var}
    (hβ : Set.InjOn β B) (hν : Set.InjOn ν V) :
    Set.InjOn (Site.rename β ν) {s | s.block ∈ B ∧ s.var ∈ V} := by
  rintro ⟨b, v⟩ ⟨hb, hv⟩ ⟨c, w⟩ ⟨hc, hw⟩ he
  obtain ⟨hbc, hvw⟩ := Site.mk.inj he
  have hblock : b = c := hβ hb hc hbc
  have hvar : v = w := hν hv hw hvw
  rw [hblock, hvar]

namespace Routine.Alike

variable {β : BlockId → BlockId} {ν : Var → Var} {ρ : Reg → Reg} {V : Set Var} {R : Set Reg}
  {f f' : Routine} (h : Alike β ν ρ V R f f')

include h

theorem awaited_mem {v : Var} (hv : v ∈ f.awaited f.graph) : v ∈ V := by
  obtain ⟨b, hb, hvb⟩ := mem_awaited.mp hv
  exact h.vars_mem b hb v (Block.mem_vars.mpr (.inl hvb))

theorem paramSites : f'.paramSites f'.graph = (f.paramSites f.graph).map (.rename β ν) := by
  rw [Routine.paramSites, Routine.paramSites, h.graph.order, List.flatMap_map, List.map_flatMap]
  apply List.flatMap_congr
  intro b hb
  rw [(h.block b hb).params, List.map_map, List.map_map]
  rfl

/-- The sites from which a need is handed on are the same. -/
theorem needed {s : Site} (hb : s.block ∈ f.graph.order) (hv : s.var ∈ V) :
    f'.needed f'.graph (s.rename β ν) = (f.needed f.graph s).map (.rename β ν) := by
  have hpreds : f'.graph.preds (s.rename β ν).block = (f.graph.preds s.block).map β :=
    h.graph.preds hb
  rw [Routine.needed, Routine.needed, hpreds, List.filter_map, List.map_map, List.map_map]
  have hfree :
      (f.graph.preds s.block).filter
        ((fun p => ((f'.block p).binding? (s.rename β ν).var).isNone) ∘ β) =
      (f.graph.preds s.block).filter fun p => ((f.block p).binding? s.var).isNone := by
    apply List.filter_congr
    intro p hp
    have hpo := (FlowGraph.mem_preds.mp hp).1
    show ((f'.block (β p)).binding? (ν s.var)).isNone = _
    rw [(h.block p hpo).binding?_map h.vars (h.vars_mem p hpo) hv, Option.isNone_map]
  rw [hfree]
  rfl

/-- The needs are found in the same order. -/
theorem sites_renamed {n n' : Needs} (hn : f.needs f.graph = .ok n)
    (hn' : f'.needs f'.graph = .ok n') :
    n'.sites = n.sites.map (.rename β ν) := by
  have hinj : Set.InjOn (Site.rename β ν) {s | s ∈ f.candidateSites f.graph} := by
    refine (injOn_siteRename h.blocks h.vars).mono fun s hs => ?_
    obtain ⟨hb, hv⟩ := mem_candidateSites.mp hs
    exact ⟨hb, h.awaited_mem hv⟩
  have hnext : ∀ s ∈ f.candidateSites f.graph,
      f'.needed f'.graph (s.rename β ν) = (f.needed f.graph s).map (.rename β ν) := by
    intro s hs
    obtain ⟨hb, hv⟩ := mem_candidateSites.mp hs
    exact h.needed hb (h.awaited_mem hv)
  have hinside : ∀ s ∈ f.candidateSites f.graph, ∀ t ∈ f.needed f.graph s,
      t ∈ f.candidateSites f.graph := by
    intro s hs t ht
    obtain ⟨hp, -, hv⟩ := mem_needed.mp ht
    exact mem_candidateSites.mpr ⟨(FlowGraph.mem_preds.mp hp).1, hv ▸ (mem_candidateSites.mp hs).2⟩
  have hseeds : ∀ s ∈ f.paramSites f.graph, s ∈ f.candidateSites f.graph := by
    intro s hs
    obtain ⟨hb, hv⟩ := mem_paramSites.mp hs
    exact mem_candidateSites.mpr ⟨hb, mem_awaited.mpr ⟨_, hb, hv⟩⟩
  have hpool : ∀ s ∈ f.candidateSites f.graph,
      (s.rename β ν ∈ (Std.ExtTreeSet.ofList (f'.candidateSites f'.graph) : Std.ExtTreeSet Site) ↔
        s ∈ (Std.ExtTreeSet.ofList (f.candidateSites f.graph) : Std.ExtTreeSet Site)) := by
    intro s hs
    rw [Std.ExtTreeSet.mem_ofList, Std.ExtTreeSet.mem_ofList, List.contains_iff_mem,
      List.contains_iff_mem]
    refine iff_of_true (mem_candidateSites.mpr ?_) hs
    obtain ⟨hb, hv⟩ := mem_candidateSites.mp hs
    obtain ⟨c, hc, hvc⟩ := mem_awaited.mp hv
    refine ⟨h.graph.mem_order hb, mem_awaited.mpr ⟨β c, h.graph.mem_order hc, ?_⟩⟩
    rw [(h.block c hc).params]
    exact List.mem_map_of_mem hvc
  rw [needs_sites hn, needs_sites hn', h.paramSites, draw_map hinj hseeds hpool]
  exact explore_map hinj hnext hinside (fun s hs => hseeds s (mem_draw.mp hs).1) fun s hs =>
    mem_draw_left_map hinj hseeds hpool hs

variable {n n' : Needs}

theorem of_renamed (hn : f.needs f.graph = .ok n) (hn' : f'.needs f'.graph = .ok n') {b : BlockId}
    (hb : b ∈ f.graph.order) : n'.of (β b) = (n.of b).map ν := by
  rw [Needs.of, Needs.of, h.sites_renamed hn hn', List.filter_map, List.map_map, List.map_map]
  have hsame : n.sites.filter ((fun s => decide (s.block = β b)) ∘ Site.rename β ν) =
      n.sites.filter fun s => decide (s.block = b) := by
    apply List.filter_congr
    intro s hs
    have hso := ((mem_sites_iff hn).mp hs).mem_order
    rw [Bool.eq_iff_iff, Function.comp, decide_eq_true_eq, decide_eq_true_eq]
    exact h.graph.eq_iff hso hb
  rw [hsame]
  rfl

theorem of_entry (hn : f.needs f.graph = .ok n) (hn' : f'.needs f'.graph = .ok n') :
    n'.of entry = (n.of entry).map ν := by
  rw [← h.of_renamed hn hn' h.ready.closed.entry_mem_order, h.start]

theorem of_mem (hn : f.needs f.graph = .ok n) {b : BlockId} {v : Var} (hv : v ∈ n.of b) :
    v ∈ V := by
  obtain ⟨c, hc, hvc⟩ := ((mem_of_iff hn).mp hv).exists_param
  exact h.vars_mem c hc v (Block.mem_vars.mpr (.inl hvc))

end Routine.Alike

end ProcCompiler
