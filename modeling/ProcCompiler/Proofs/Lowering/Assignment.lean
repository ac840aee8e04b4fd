import ProcCompiler.Proofs.Lowering.Owners
/-!
# Which instructions write a register

A drafted routine writes each register once. Of the passes only the split of joins adds
instructions: a block on an edge into a join moves each variable that the join needs into a register
that the edges share. Arguments come in registers that nothing writes. So in the end a register is
written in one place, or by one move on each edge into one join, or not at all.

* `Routine.Assignment`: the three ways.
* `Routine.assigned_split`: the registers when the joins are split.
* `Assigned.arguments`, `Assigned.delivery`: the later passes.
* `registers_keep_owners`: what holds of the registers of a drafted procedure at all stages.
* `stranded_operand_waits`: blocks that nothing leads to go on waiting.
-/
namespace ProcCompiler

open Routine

/-! ## Writes -/

/-- Blocks with the same actions move to the same registers. -/
theorem Block.exists_move {b b' : Block} (h : b'.actions = b.actions) {r : Reg} {o : Operand}
    (ho : .move r o ∈ b.body) : ∃ o', .move r o' ∈ b'.body := by
  have hmem : Action.move r () ∈ b'.actions := by
    rw [h]
    exact List.mem_map.mpr ⟨_, ho, rfl⟩
  obtain ⟨a, ha, heq⟩ := List.mem_map.mp hmem
  cases a with
  | move s o' => cases heq; exact ⟨o', ha⟩
  | call fn out arg => cases heq
  | unknown code => cases heq

namespace Routine

/-- A register that new blocks do not write is written as often as before. -/
theorem count_writes {f g : Routine} (hsize : f.blocks.size ≤ g.blocks.size)
    (hold : ∀ b < f.blocks.size, (g.block b).writes = (f.block b).writes) {r : Reg}
    (hnew : ∀ b, f.blocks.size ≤ b → r ∉ (g.block b).writes) :
    g.writes.count r = f.writes.count r := by
  obtain ⟨m, hm⟩ := Nat.exists_eq_add_of_le hsize
  have hmore :
      (((List.range m).map (f.blocks.size + ·)).flatMap fun b => (g.block b).writes).count r =
        0 := by
    rw [List.count_eq_zero, List.mem_flatMap]
    rintro ⟨b, hb, hr⟩
    obtain ⟨k, -, rfl⟩ := List.mem_map.mp hb
    exact hnew _ (Nat.le_add_right _ _) hr
  unfold writes
  rw [hm, List.range_add, List.flatMap_append, List.count_append, hmore, Nat.add_zero]
  rw [List.flatMap_congr fun b hb => hold b (List.mem_range.mp hb)]

end Routine

/-- The block of an edge writes the shared registers. -/
theorem writes_edgeBlock (vs : List Var) (shared : List Reg) (t : BlockId) :
    (edgeBlock vs shared t).writes = shared := by
  have hmap : (shared.zipIdx.map fun p : Reg × Nat =>
      (Action.move p.1 (.param p.2) : Action Reg Operand)).filterMap
      Action.write? = shared := by
    rw [List.filterMap_map]
    conv_rhs => rw [← List.zipIdx_map_fst 0 shared]
    exact congrFun List.filterMap_eq_map _
  exact hmap

/-- It writes them by moves. -/
theorem exists_move_edgeBlock {vs : List Var} {shared : List Reg} {t : BlockId} {r : Reg}
    (hr : r ∈ shared) :
    ∃ o, .move r o ∈ (edgeBlock vs shared t).body := by
  rw [← List.zipIdx_map_fst 0 shared] at hr
  obtain ⟨⟨_, i⟩, hi, rfl⟩ := List.mem_map.mp hr
  exact ⟨.param i, List.mem_map.mpr ⟨_, hi, rfl⟩⟩

/-! ## Edges into joins -/

namespace Routine

/-- The lowering of `f` to `g` made the block for an edge into `t`: it comes after the blocks of `f`
and the single exit, and leads to `t` alone. -/
def OnEdge (f g : Routine) (t b : BlockId) : Prop :=
  f.blocks.size < b ∧ b < g.blocks.size ∧ (g.block b).exitLabels = some [(t : Label)]

/-- How the register `r` is written once the joins of `f` are split in `g`. -/
inductive Assignment (f g : Routine) (r : Reg) : Prop where
  /-- A register of `f` is written by one instruction. -/
  | once (hr : (f.regInfo? r).isSome) (hw : g.writes.count r = 1)
  /-- A register that is shared is written by one move in each block on an edge into one join. -/
  | shared (t : BlockId) (hr : f.regInfo? r = none) (hs : g.slot? r = none)
      (hjoin : ∃ b c, b ≠ c ∧ f.OnEdge g t b ∧ f.OnEdge g t c)
      (hedge : ∀ b, f.OnEdge g t b → (g.block b).writes.count r = 1 ∧
        ∃ o, .move r o ∈ (g.block b).body)
      (hother : ∀ b, ¬ f.OnEdge g t b → r ∉ (g.block b).writes)
  /-- The register of an argument is not written. -/
  | argument (hs : (g.slot? r).isSome) (hw : r ∉ g.writes)

end Routine

namespace SplitOf

variable {f f' : Routine} {n : Needs} (h : SplitOf f n f')

include h

/-- Each register that the split makes is shared by the edges into a join. -/
theorem exists_shared {r : Reg} {info : RegInfo} (hr : f'.regInfo? r = some info)
    (hnone : f.regInfo? r = none) :
    ∃ t v, f.graph.IsJoin n t ∧ v ∈ n.of t ∧ f.shared n t v = r ∧ info = { var := v } := by
  obtain ⟨k, rfl, hk⟩ := exists_of_append h.split.regs hr hnone
  rw [List.getElem?_map, Option.map_eq_some_iff] at hk
  obtain ⟨⟨t, v⟩, hs, rfl⟩ := hk
  obtain ⟨hlt, hget⟩ := List.getElem?_eq_some_iff.mp hs
  obtain ⟨-, ht, hv⟩ := FlowGraph.mem_joinSites.mp (List.mem_of_getElem? hs)
  have hidx : (f.sites n).idxOf ⟨t, v⟩ = k := by
    rw [← hget]
    exact (nodup_joinSites f (Needs.nodup_of (nodup_sites h.needs))).idxOf_getElem k hlt
  exact ⟨t, v, ht, hv, by rw [Routine.shared, sharedReg, hidx], rfl⟩

theorem writes_edge {e : Edge} (he : e ∈ f.edges n) :
    (f'.block (f.edgeId n e)).writes = (n.of e.target).map (f.shared n e.target) := by
  rw [h.block_edge he, writes_edgeBlock]

/-- A shared register is written once on each edge into its join. -/
theorem count_edge {t : BlockId} (ht : f.graph.IsJoin n t) {v : Var} (hv : v ∈ n.of t) {e : Edge}
    (he : e ∈ f.edges n) (het : e.target = t) :
    (f'.block (f.edgeId n e)).writes.count (f.shared n t v) = 1 := by
  subst het
  rw [h.writes_edge he]
  refine List.count_eq_one_of_mem ?_ (List.mem_map_of_mem hv)
  exact (Needs.nodup_of (nodup_sites h.needs) _).map_on fun w hw u _ heq =>
    (h.shared_inj ht hw heq).2

/-- It is not written on other edges. -/
theorem not_mem_edge {t : BlockId} (ht : f.graph.IsJoin n t) {v : Var} (hv : v ∈ n.of t) {e : Edge}
    (he : e ∈ f.edges n) (het : e.target ≠ t) :
    f.shared n t v ∉ (f'.block (f.edgeId n e)).writes := by
  rw [h.writes_edge he, List.mem_map]
  rintro ⟨w, -, heq⟩
  exact het (h.shared_inj ht hv heq.symm).1.symm

/-- A join has at least two edges. -/
theorem exists_two_edges {t : BlockId} (ht : f.graph.IsJoin n t) :
    ∃ p q, p ≠ q ∧ (⟨p, t⟩ : Edge) ∈ f.edges n ∧
    (⟨q, t⟩ : Edge) ∈ f.edges n := by
  by_contra hone
  refine absurd ht.1
    (Nat.not_le.mpr (FlowGraph.length_preds_lt_two (nodup_order f) fun p hp q hq => ?_))
  by_contra hpq
  exact hone ⟨p, q, hpq, h.mem_edges.mpr ⟨ht, hp⟩, h.mem_edges.mpr ⟨ht, hq⟩⟩

end SplitOf

/-! ## After the split -/

namespace Routine

/-- Every register is written in one of the ways above, and nothing else is written. -/
structure Assigned (f g : Routine) : Prop where
  made : ∀ r ∈ g.writes, (g.regInfo? r).isSome
  each : ∀ r, (g.regInfo? r).isSome → f.Assignment g r

section

variable {f f₂ : Routine} {g : FlowGraph} {n : Needs} (h : SplitOf (f.addExit g).1 n f₂)

include h

/-- The blocks on edges are those after the single exit, each with the target of its edge. -/
theorem onEdge_iff {t b : BlockId} :
    f.OnEdge f₂ t b ↔ ∃ e ∈ (f.addExit g).1.edges n, e.target = t ∧
      b = (f.addExit g).1.edgeId n e := by
  have hlabels : ∀ e ∈ (f.addExit g).1.edges n,
      (f₂.block ((f.addExit g).1.edgeId n e)).exitLabels = some [(e.target : Label)] :=
        fun e he => by
    rw [h.block_edge he]; rfl
  constructor
  · rintro ⟨hle, hlt, ht⟩
    rcases h.old_or_edge hlt with hold | ⟨e, he, rfl⟩
    · rw [size_addExit] at hold
      exact absurd hold (Nat.not_lt.mpr hle)
    · rw [hlabels e he] at ht
      exact ⟨e, he, Int.ofNat.inj (List.singleton_inj.mp (Option.some.inj ht)), rfl⟩
  · rintro ⟨e, he, rfl, rfl⟩
    refine ⟨?_, h.edgeId_lt he, hlabels e he⟩
    have hle := le_edgeId (f.addExit g).1 n e
    rwa [size_addExit] at hle

/-- What a block writes after the split it wrote before, or it is on an edge and writes shared
registers. -/
theorem writes_split_cases (hd : f.Distinct) {b : BlockId} {r : Reg}
    (hr : r ∈ (f₂.block b).writes) :
    b < f.blocks.size ∧ r ∈ (f.block b).writes ∨
      ∃ e ∈ (f.addExit g).1.edges n, b = (f.addExit g).1.edgeId n e ∧
        ∃ v ∈ n.of e.target, r = (f.addExit g).1.shared n e.target v := by
  have hlt : b < f₂.blocks.size := by
    by_contra hb
    rw [block_of_le (Nat.le_of_not_lt hb)] at hr
    cases hr
  rcases h.old_or_edge hlt with hold | ⟨e, he, rfl⟩
  · left
    rw [((Supplied.splitJoins h (hd.addExit g)).old b hold).writes] at hr
    rw [size_addExit] at hold
    rcases Nat.lt_succ_iff_lt_or_eq.mp hold with hlt | rfl
    · exact ⟨hlt, ((Supplied.addExit f g).old b hlt).writes ▸ hr⟩
    · rw [block_addExit_exit] at hr
      cases hr
  · right
    rw [h.writes_edge he, List.mem_map] at hr
    obtain ⟨v, hv, rfl⟩ := hr
    exact ⟨e, he, rfl, v, hv, rfl⟩

omit h in
theorem regInfo?_addExit (r : Reg) : (f.addExit g).1.regInfo? r = f.regInfo? r := by
  unfold regInfo?
  rw [regs_addExit]

theorem regInfo?_shared {t : BlockId} (ht : (f.addExit g).1.graph.IsJoin n t) {v : Var}
    (hv : v ∈ n.of t) :
    f.regInfo? ((f.addExit g).1.shared n t v) = none ∧
      f₂.regInfo? ((f.addExit g).1.shared n t v) = some { var := v } := by
  obtain ⟨k, hk, hle, hinfo⟩ := h.shared_spec ht hv
  rw [regs_addExit] at hle
  rw [hk, regInfo?_natCast, regInfo?_natCast, Array.getElem?_toList, Array.getElem?_toList]
  exact ⟨Array.getElem?_eq_none hle, hinfo⟩

theorem made_split (hd : f.Distinct) (hw : f.WritesEach) {r : Reg} (hr : r ∈ f₂.writes) :
    (f₂.regInfo? r).isSome := by
  obtain ⟨b, -, hb⟩ := Routine.mem_writes.mp hr
  rcases writes_split_cases h hd hb with ⟨hlt, hb⟩ | ⟨e, he, -, v, hv, rfl⟩
  · obtain ⟨info, hr⟩ :=
      Option.isSome_iff_exists.mp (hw.mem_iff.mp (Routine.mem_writes.mpr ⟨b, hlt, hb⟩))
    exact Option.isSome_of_eq_some (regInfo?_of_append h.split.regs ((regInfo?_addExit r).trans hr))
  · exact Option.isSome_of_eq_some (regInfo?_shared h (h.mem_edges.mp he).1 hv).2

/-- A register of the routine is written as before. -/
theorem assignment_once (hd : f.Distinct) (hw : f.WritesEach) {r : Reg}
    (hr : (f.regInfo? r).isSome) :
    f.Assignment f₂ r := by
  have hsupplied : f.Supplied f₂ := (Supplied.addExit f g).trans (.splitJoins h (hd.addExit g))
  refine .once hr ?_
  rw [count_writes hsupplied.size (fun b hb => (hsupplied.old b hb).writes), hw.count_eq_one hr]
  intro b hb hmem
  rcases writes_split_cases h hd hmem with ⟨hlt, -⟩ | ⟨e, he, -, v, hv, rfl⟩
  · exact absurd hlt (Nat.not_lt.mpr hb)
  · rw [(regInfo?_shared h (h.mem_edges.mp he).1 hv).1] at hr
    cases hr

/-- A register that the split makes is written on the edges into its join. -/
theorem assignment_shared (hd : f.Distinct) (hw : f.WritesEach) {t : BlockId}
    (ht : (f.addExit g).1.graph.IsJoin n t) {v : Var} (hv : v ∈ n.of t) :
    f.Assignment f₂ ((f.addExit g).1.shared n t v) := by
  obtain ⟨hnone, hinfo⟩ := regInfo?_shared h ht hv
  refine .shared t hnone (by rw [slot?, hinfo]; rfl) ?_ (fun b hb => ?_) fun b hb hmem => ?_
  · obtain ⟨p, q, hpq, hp, hq⟩ := h.exists_two_edges ht
    refine ⟨_, _, fun heq => hpq ?_, (onEdge_iff h).mpr ⟨_, hp, rfl, rfl⟩,
      (onEdge_iff h).mpr ⟨_, hq, rfl, rfl⟩⟩
    exact (Edge.mk.inj (edgeId_inj hp heq)).1
  · obtain ⟨e, he, rfl, rfl⟩ := (onEdge_iff h).mp hb
    refine ⟨h.count_edge ht hv he rfl, ?_⟩
    rw [h.block_edge he]
    exact exists_move_edgeBlock (List.mem_map_of_mem hv)
  · rcases writes_split_cases h hd hmem with ⟨hlt, hmem⟩ | ⟨e, he, rfl, -⟩
    · have hsome := hw.mem_iff.mp (Routine.mem_writes.mpr ⟨b, hlt, hmem⟩)
      rw [hnone] at hsome
      cases hsome
    · by_cases het : e.target = t
      · exact hb ((onEdge_iff h).mpr ⟨e, he, het, rfl⟩)
      · exact h.not_mem_edge ht hv he het hmem

theorem assigned_split (hd : f.Distinct) (hw : f.WritesEach) : f.Assigned f₂ where
  made _ hr := made_split h hd hw hr
  each r hr := by
    obtain ⟨info, hr⟩ := Option.isSome_iff_exists.mp hr
    cases hf : f.regInfo? r with
    | some _ => exact assignment_once h hd hw (Option.isSome_of_eq_some hf)
    | none =>
      obtain ⟨t, v, ht, hv, rfl, -⟩ := h.exists_shared hr ((regInfo?_addExit r).trans hf)
      exact assignment_shared h hd hw ht hv

end

/-! ## The later passes -/

section

variable {f g g' : Routine} (hsize : g'.blocks.size = g.blocks.size)

include hsize

theorem writes_of_actions (hactions : ∀ b, (g'.block b).actions = (g.block b).actions) :
    g'.writes = g.writes :=
  writes_congr hsize fun b => by rw [Block.writes_eq, Block.writes_eq, hactions]

theorem onEdge_congr
    (hexits : ∀ b, f.blocks.size < b → (g'.block b).exitLabels = (g.block b).exitLabels)
    {t b : BlockId} : f.OnEdge g' t b ↔ f.OnEdge g t b := by
  unfold OnEdge
  rw [hsize]
  exact and_congr_right fun hb => by rw [hexits b hb]

/-- A pass that leaves actions and jumps alone leaves alone how registers are written. -/
theorem Assignment.of_same (hactions : ∀ b, (g'.block b).actions = (g.block b).actions)
    (hexits : ∀ b, f.blocks.size < b → (g'.block b).exitLabels = (g.block b).exitLabels) {r : Reg}
    (hs : g'.slot? r = g.slot? r) (h : f.Assignment g r) : f.Assignment g' r := by
  have hedge : ∀ t b, f.OnEdge g' t b ↔ f.OnEdge g t b := fun t b => onEdge_congr hsize hexits
  have hwrites : ∀ b, (g'.block b).writes = (g.block b).writes := fun b => by
    rw [Block.writes_eq, Block.writes_eq, hactions]
  cases h with
  | once hr hw => exact .once hr (by rw [writes_of_actions hsize hactions, hw])
  | shared t hr hslot hjoin hon hother =>
    refine .shared t hr (hs.trans hslot) ?_ (fun b hb => ?_) fun b hb => ?_
    · obtain ⟨b, c, hbc, hb, hc⟩ := hjoin
      exact ⟨b, c, hbc, (hedge t b).mpr hb, (hedge t c).mpr hc⟩
    · obtain ⟨hcount, o, ho⟩ := hon b ((hedge t b).mp hb)
      exact ⟨by rw [hwrites, hcount], Block.exists_move (hactions b) ho⟩
    · rw [hwrites]
      exact hother b fun hb' => hb ((hedge t b).mpr hb')
  | argument hslot hw =>
    exact .argument (by rw [hs, hslot]) (by rwa [writes_of_actions hsize hactions])

end

namespace Assigned

variable {f f₂ f₃ : Routine}

/-- Arguments come in registers that nothing writes. -/
theorem arguments {n : Needs} {slots : List Slot} {e : Option SignatureError} (h : f.Assigned f₂)
    (hd : f₂.Distinct) (h0 : entry < f₂.blocks.size) (hb : f₂.bindArguments n slots = .ok (f₃, e)) :
    f.Assigned f₃ := by
  obtain ⟨-, hargued, -⟩ := bindArguments_argued h0 hb
  have hactions := (Supplied.bindArguments hd hb).actions hargued.size
  have hwrites := writes_of_actions hargued.size hactions
  have hexits : ∀ b, f.blocks.size < b → (f₃.block b).exitLabels = (f₂.block b).exitLabels :=
    fun b hlt => by
    rw [hargued.other b (Nat.ne_of_gt (Nat.zero_lt_of_lt hlt))]
  refine ⟨fun r hr => ?_, fun r hr => ?_⟩
  · obtain ⟨info, hinfo⟩ := Option.isSome_iff_exists.mp (h.made r (hwrites ▸ hr))
    exact Option.isSome_of_eq_some (regInfo?_of_append hargued.regs hinfo)
  · obtain ⟨info, hinfo⟩ := Option.isSome_iff_exists.mp hr
    cases hold : f₂.regInfo? r with
    | some _ =>
      refine (h.each r (Option.isSome_of_eq_some hold)).of_same hargued.size hactions hexits ?_
      rw [slot?, slot?, hold, regInfo?_of_append hargued.regs hold]
    | none =>
      obtain ⟨k, -, hk⟩ := exists_of_append hargued.regs hinfo hold
      obtain ⟨v, hv, rfl⟩ := List.mem_map.mp (List.mem_of_getElem? hk)
      refine .argument ?_ fun hmem => ?_
      · rw [slot?, hinfo]
        exact (List.mem_filter.mp hv).2
      · have hmade := h.made r (hwrites ▸ hmem)
        rw [hold] at hmade
        cases hmade

theorem delivery {g : FlowGraph} (h : f.Assigned f₂) (hd : f₂.Distinct) (hf : f₂.Typed)
    (hb : f₂.deliverAll g = .ok f₃) : f.Assigned f₃ := by
  have hshape := sameShape_deliverAll hb
  have hactions := (Supplied.deliverAll hd hf hb).actions hshape.size
  have hinfo : ∀ r, f₃.regInfo? r = f₂.regInfo? r := fun r => by
    unfold regInfo?
    rw [hshape.regs]
  refine ⟨fun r hr => ?_, fun r hr => ?_⟩
  · rw [hinfo]
    exact h.made r (writes_of_actions hshape.size hactions ▸ hr)
  · refine (h.each r (hinfo r ▸ hr)).of_same hshape.size hactions (fun b _ => hshape.exits b) ?_
    rw [slot?, slot?, hinfo]

end Assigned

theorem Passes.assigned {f : Routine} {slots : List Slot} (hd : f.Distinct) (hf : f.Typed)
    (hw : f.WritesEach) {p : Progress} (hp : f.Passes slots p) (h2 : 2 ≤ p.passes) :
    f.Assigned p.routine := by
  have hentry : ∀ {f₂ : Routine} {g : FlowGraph}, f₂.analyze = .ok g → entry < f₂.blocks.size :=
    fun hg =>
    Nat.lt_of_lt_of_le Nat.zero_lt_two (closed_of_analyze hg).body
  induction hp with
  | exit _ => cases Nat.not_succ_le_self 1 h2
  | joins h hg hn hs _ =>
    cases h with
    | exit _ => exact assigned_split (splitOf_of_splitJoins hg hn hs).1 hd hw
  | arguments h hg hb ih => exact (ih (Nat.le_refl 2)).arguments (h.typed hd hf).1 (hentry hg) hb
  | missing h hg hb ih => exact (ih (Nat.le_refl 2)).arguments (h.typed hd hf).1 (hentry hg) hb
  | delivery h _ hd' ih =>
    obtain ⟨hdistinct, htyped⟩ := h.typed hd hf
    exact (ih (Nat.le_succ 2)).delivery hdistinct htyped hd'

/-! ## All of lowering -/

theorem After.of_lower {f F : Routine} {slots : List Slot} {l : Lowered}
    (h : f.lower slots = .ok (F, .ok l)) :
    f.After slots 4 F := by
  rcases passes_of_lower h with ⟨-, hp⟩ | ⟨⟨e, he⟩, -⟩
  · exact .passed hp
  · cases he

/-- The blocks that lowering reports are those after the blocks of the routine and the single
exit. -/
theorem mem_edges_of_lower {f F : Routine} {slots : List Slot} {l : Lowered}
    (h : f.lower slots = .ok (F, .ok l)) (b : BlockId) :
    b ∈ l.edges ↔ f.blocks.size < b ∧ b < F.blocks.size := by
  obtain ⟨s⟩ := exists_stages h
  have hsingle : s.single.blocks.size = f.blocks.size + 1 := by rw [s.single_eq, size_addExit]
  rw [s.edges_eq, mem_edgeBlocks, s.size_final, s.splitOf.size, hsingle]
  rfl

/-- Registers stay with their variables while `f` is lowered. -/
structure KeepsOwners (f : Routine) (slots : List Slot) : Prop where
  /-- Before lowering each register is written by one instruction. -/
  built : ∀ r, (f.regInfo? r).isSome → f.writes.count r = 1
  /-- No pass changes the variable of a register. -/
  owners : ∀ j e k g, f.After slots j e → f.After slots k g → j ≤ k → ∀ r v, e.Owns r v → g.Owns r v
  /-- At every stage a block binds a variable to registers of the variable only. -/
  bindings : ∀ k g, f.After slots k g → ∀ b v r, (g.block b).binding? v = some r → g.Owns r v
  /-- An operand that is a parameter for a variable stays one, or becomes a register of the
  variable. -/
  operands : ∀ j e k g, f.After slots j e → f.After slots k g → j ≤ k → ∀ b i v, e.Awaits b i v →
    g.Awaits b i v ∨ ∃ r, (g.block b).operandAt? i = some (.reg r) ∧ g.Owns r v
  /-- In the end every such operand of a block that the entry reaches is a register of the
  variable. -/
  settled : ∀ j e g, f.After slots j e → f.After slots 4 g → ∀ b ∈ g.graph.order, ∀ i v,
    e.Awaits b i v →
    ∃ r, (g.block b).operandAt? i = some (.reg r) ∧ g.Owns r v
  /-- Once the joins are split, a register is written once, or on all edges into one join, or stands
  for an argument. -/
  assigned : ∀ k g, 2 ≤ k → f.After slots k g → ∀ r, (g.regInfo? r).isSome → f.Assignment g r
  /-- The blocks on edges are those that lowering reports. -/
  edges : ∀ F l, f.lower slots = .ok (F, .ok l) → f.After slots 4 F ∧
    ∀ b, b ∈ l.edges ↔ f.blocks.size < b ∧ b < F.blocks.size

end Routine

/-- A register of a drafted procedure belongs to one variable at every stage of lowering: blocks
bind the variable to it, operands that wait for the variable become it, and it is written in one
place, or by one move on each edge into one join, or, if it stands for an argument, nowhere. -/
theorem registers_keep_owners {table : ForeignTable} {x : ProcDecl} {f : Routine}
    {slots : List Slot} (h : x.draft table = .ok (f, slots)) : f.KeepsOwners slots := by
  obtain ⟨P, hP⟩ := x.exists_planned h
  have hd : f.Distinct := hP.ready.nodup
  have hf := x.typed_of_draft h
  have hw := x.writesEach_of_draft h
  have hoperands : ∀ j e k g, f.After slots j e → f.After slots k g → j ≤ k →
      ∀ b i v, e.Awaits b i v →
      g.Awaits b i v ∨ ∃ r, (g.block b).operandAt? i = some (.reg r) ∧ g.Owns r v :=
    fun j e k g he hg hjk b i v => (he.supplied hd hf hg hjk).awaits
  exact {
    built := fun r hr => hw.count_eq_one hr
    owners := fun j e k g he hg hjk => (he.supplied hd hf hg hjk).owns
    bindings := fun k g hg => hg.typed hd hf
    operands := hoperands
    settled := fun j e g he hg b hb i v ha => by
      refine (hoperands j e 4 g he hg he.le_four b i v ha).resolve_left ?_
      rintro ⟨k, -, hk⟩
      rw [(hg.delivered rfl).params_delivered hb] at hk
      cases hk
    assigned := fun k g h2 hg => by
      cases hg with
      | built => cases h2
      | passed hp => exact (hp.assigned hd hf hw h2).each
    edges := fun F l hl => ⟨.of_lower hl, mem_edges_of_lower hl⟩ }

/-- Calls a function on `x` until it answers. Nothing leads to the last label. -/
def strandedProc : ProcDecl where
  span := ⟨0, 0⟩
  name := .bare "poll"
  args := [{ span := ⟨0, 0⟩, access := .bare "mut", name := .bare "x", size := 8 }]
  body := [.label (.bare "again"), .call (.bare "ask") (.bare "x"),
    .branch (.bare "x") (.bare "done") (.bare "again"), .label (.bare "done"), .ret ⟨0, 0⟩,
    .label (.bare "lost"), .move (.bare "y") (.bare "x")]

def strandedTable : ForeignTable := { names := ["ask"] }

/-- Block 2 is the loop and block 4 that of the last label. Both wait for `x`, which is variable
0. -/
theorem lower_strandedProc : ∃ f slots F l, strandedProc.draft strandedTable = .ok (f, slots) ∧
    f.lower slots = .ok (F, .ok l) ∧ f.Awaits 2 0 0 ∧ 2 ∈ F.graph.order ∧ f.Awaits 4 0 0 ∧
    (F.block 4).operandAt? 0 = some (.param 0) := by
  obtain ⟨⟨f, slots⟩, hdraft, h⟩ := exists_of_any (x := strandedProc.draft strandedTable)
    (p := fun r => decide ((r.1.block 2).operandAt? 0 = some (.param 0) ∧
      (r.1.block 2).params[0]? = some 0 ∧
        (r.1.block 4).operandAt? 0 = some (.param 0) ∧ (r.1.block 4).params[0]? = some 0) &&
      (r.1.lower r.2).toOption.any fun q => q.2.toOption.any fun _ =>
        decide (2 ∈ q.1.graph.order ∧ (q.1.block 4).operandAt? 0 = some (.param 0)))
        (by decide +kernel)
  rw [Bool.and_eq_true, decide_eq_true_eq] at h
  obtain ⟨⟨hread, hparam, hread', hparam'⟩, h⟩ := h
  obtain ⟨F, l, hlower, h⟩ := exists_lowered f slots
    (fun F _ => decide (2 ∈ F.graph.order ∧ (F.block 4).operandAt? 0 = some (.param 0))) h
  obtain ⟨horder, hstays⟩ := of_decide_eq_true h
  exact ⟨f, slots, F, l, hdraft, hlower, ⟨0, hread, hparam⟩, horder, ⟨0, hread', hparam'⟩, hstays⟩

/-- In the loop the operand that waits for `x` becomes a register of `x`, which is written in one of
the three ways. -/
theorem registers_keep_owners_stranded :
    ∃ f slots F l r, strandedProc.draft strandedTable = .ok (f, slots) ∧
    f.KeepsOwners slots ∧ f.lower slots = .ok (F, .ok l) ∧ f.Awaits 2 0 0 ∧
    (F.block 2).operandAt? 0 = some (.reg r) ∧ F.Owns r 0 ∧ f.Assignment F r := by
  obtain ⟨f, slots, F, l, hdraft, hlower, hawaits, horder, -⟩ := lower_strandedProc
  have hkeeps := registers_keep_owners hdraft
  have hlast := (hkeeps.edges F l hlower).1
  obtain ⟨r, hr, howns⟩ := hkeeps.settled 0 f F .built hlast 2 horder 0 0 hawaits
  have hmade : (F.regInfo? r).isSome := by
    obtain ⟨info, hinfo, -⟩ := Option.map_eq_some_iff.mp howns
    exact Option.isSome_of_eq_some hinfo
  exact ⟨f, slots, F, l, r, hdraft, hkeeps, hlower, hawaits, hr, howns,
    hkeeps.assigned 4 F (by decide) hlast r hmade⟩

/-- Where nothing leads, an operand that waits for a variable does so to the end. -/
theorem stranded_operand_waits : ∃ f slots F l, strandedProc.draft strandedTable = .ok (f, slots) ∧
    f.lower slots = .ok (F, .ok l) ∧ f.Awaits 4 0 0 ∧ (F.block 4).operandAt? 0 = some (.param 0) ∧
    ¬ ∃ r, (F.block 4).operandAt? 0 = some (.reg r) ∧ F.Owns r 0 := by
  obtain ⟨f, slots, F, l, hdraft, hlower, -, -, hawaits, hstays⟩ := lower_strandedProc
  refine ⟨f, slots, F, l, hdraft, hlower, hawaits, hstays, ?_⟩
  rintro ⟨r, hr, -⟩
  rw [hstays] at hr
  cases hr

end ProcCompiler
