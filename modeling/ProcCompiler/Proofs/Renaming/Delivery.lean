import ProcCompiler.Proofs.Lowering.Complete
import ProcCompiler.Proofs.Renaming.Joins
import ProcCompiler.Proofs.Renaming.Layout
/-!
# Delivery under other names

Registers reach a block along its jumps. In alike routines the argument registers correspond, and
what a block binds at its end corresponds if what came into it does. So along every path of jumps
the registers that are delivered correspond, and the routines that lowering lays out have the same
code under other names.

* `Corresponds`: two assignments of registers to variables that agree under the new names.
* `Alike.corresponds_entry`, `Alike.corresponds_bindings`, `Alike.corresponds_into`: the entry, a
  block, a jump.
* `Alike.corresponds_order`: all reached blocks.
* `Alike.laidAlike`: the routines that are laid out.
-/
namespace ProcCompiler

/-- A variable that both sides have is in a register of `D` on one side and in the renamed register
on the other. -/
def Corresponds (ν : Var → Var) (ρ : Reg → Reg) (V : Set Var) (D : Set Reg)
    (σ σ' : Var → Option Reg) : Prop :=
  ∀ v ∈ V, ∀ r r', σ v = some r → σ' (ν v) = some r' → r ∈ D ∧ r' = ρ r

/-- A slot is found at the same place. -/
theorem slotOf?_renamed {ν : Var → Var} {V : Set Var} (hν : Set.InjOn ν V) {v : Var} (hv : v ∈ V) :
    ∀ {slots slots' : List Slot}, slots'.map Slot.var = slots.map (fun s => ν s.var) →
      (∀ s ∈ slots, s.var ∈ V) → slotOf? slots' (ν v) = slotOf? slots v
  | [], [], _, _ => rfl
  | s :: slots, s' :: slots', hmap, hslots => by
    obtain ⟨hvar, hrest⟩ := List.cons.inj hmap
    have hiff : s'.var = ν v ↔ s.var = v := by
      rw [hvar]
      exact hν.eq_iff (hslots s List.mem_cons_self) hv
    have ih := slotOf?_renamed hν hv hrest fun t ht => hslots t (List.mem_cons_of_mem s ht)
    simp only [slotOf?] at ih ⊢
    rw [List.findIdx?_cons, List.findIdx?_cons, ih]
    simp only [hiff]

/-- Every reached block but the entry is filled with what came into it. -/
theorem Settled.filled {f f₂ F : Routine} {n : Needs} {slots : List Slot}
    {into : BlockId → Var → Option Reg} (s : Settled f n slots into f₂ F) {b : BlockId}
    (hb : b ∈ f₂.graph.order) (h0 : b ≠ entry) :
    Block.Filled (f.unfilled n b) (F.block b) (into b) := by
  rcases s.split.kinds hb with ho | ⟨e, he, rfl⟩
  · rw [Routine.unfilled_old (s.split.closed.lt_of_mem_order ho)]
    exact s.old b ho h0
  · rw [Routine.unfilled_edge he]
    exact s.edge e he

/-- What a block waited for came into it. -/
theorem Settled.exists_into {f f₂ F : Routine} {n : Needs} {slots : List Slot}
    {into : BlockId → Var → Option Reg} (s : Settled f n slots into f₂ F) {b : BlockId}
    (hb : b ∈ f₂.graph.order) (h0 : b ≠ entry) {v : Var} (hv : v ∈ (f.unfilled n b).params) :
    ∃ r, into b v = some r := by
  have hparams := (s.filled hb h0).params
  rw [s.waits b hb] at hparams
  have hnot := List.filter_eq_nil_iff.mp hparams.symm v hv
  exact Option.isSome_iff_exists.mp (by simpa [Option.isSome_iff_ne_none] using hnot)

namespace Routine.Alike

variable {β : BlockId → BlockId} {ν : Var → Var} {ρ : Reg → Reg} {V : Set Var} {R : Set Reg}
  {f f' f₂ f₂' F F' : Routine} {n n' : Needs} {slots slots' : List Slot}
  {into into' : BlockId → Var → Option Reg}
  (h : Alike β ν ρ V R f f') (s : Settled f n slots into f₂ F)
    (s' : Settled f' n' slots' into' f₂' F')

include h s s'

theorem entry_ne {b : BlockId} (hb : b ∈ f₂.graph.order) (h0 : b ≠ entry) :
    f.extendBlocks f' β b ≠ entry := by
  have hentry : f.extendBlocks f' β entry = entry := by
    rw [extendBlocks_of_lt s.split.entry_lt, h.start]
  intro he
  exact h0 ((h.split_graph s.split s'.split).inj hb s.split.closed'.entry_mem_order
    (he.trans hentry.symm))

omit h s' in
theorem argument_fresh (v : Var) :
    ((f₂.regs.size + (n.of entry).idxOf v : Nat) : Reg) ∈ f.withFresh R := by
  refine .inr (Int.ofNat_le.mpr ?_)
  rw [s.split.split.regs_size, Nat.add_assoc]
  exact Nat.le_add_right _ _

/-- The registers for the arguments are numbered on alike. -/
theorem argument_renamed {v : Var} (hv : v ∈ V) :
    f.extendRegs f' ρ ((f₂.regs.size + (n.of entry).idxOf v : Nat) : Reg) =
      ((f₂'.regs.size + (n'.of entry).idxOf (ν v) : Nat) : Reg) := by
  have hidx : (n'.of entry).idxOf (ν v) = (n.of entry).idxOf v := by
    rw [h.of_entry s.split.needs s'.split.needs]
    exact idxOf_map_of_inj fun w hw he => h.vars (h.of_mem s.split.needs hw) hv he
  have hsites : (f'.sites n').length = (f.sites n).length := by
    rw [h.joinSites_renamed s.split s'.split, List.length_map]
  rw [hidx, s.split.split.regs_size, s'.split.split.regs_size, hsites, Nat.add_assoc, Nat.add_assoc]
  exact extendRegs_add _

/-! ## Along the jumps -/

/-- The entry binds the argument registers. -/
theorem corresponds_entry :
    Corresponds ν (f.extendRegs f' ρ) V (f.withFresh R) (F.block entry).binding?
    (F'.block entry).binding? := by
  intro v hv r r' hr hr'
  rw [s.entryBinding] at hr
  rw [s'.entryBinding] at hr'
  split at hr
  · split at hr'
    · cases hr
      cases hr'
      exact ⟨argument_fresh s v, (h.argument_renamed s s' hv).symm⟩
    · cases hr'
  · cases hr

/-- What comes into a block is what a predecessor binds. -/
theorem corresponds_into {a b : BlockId} (ha : a ∈ f₂.graph.order) (hab : b ∈ f₂.graph.succs a)
    {D : Set Reg} {τ : Reg → Reg}
    (hc : Corresponds ν τ V D (F.block a).binding? (F'.block (f.extendBlocks f' β a)).binding?) :
    Corresponds ν τ V D (into b) (into' (f.extendBlocks f' β b)) := by
  have hg := h.split_graph s.split s'.split
  have hb := s.split.closed'.succ_mem_order ha hab
  have hp : a ∈ f₂.graph.preds b := FlowGraph.mem_preds.mpr ⟨ha, hab⟩
  have hp' : f.extendBlocks f' β a ∈ f₂'.graph.preds (f.extendBlocks f' β b) := by
    rw [hg.preds hb]
    exact List.mem_map_of_mem hp
  intro v hv r r' hr hr'
  exact hc v hv r r' (s.flows b a hp v r hr) (s'.flows _ _ hp' (ν v) r' hr')

/-- A block binds what it bound before, and otherwise what came into it. -/
theorem corresponds_bindings {b : BlockId} (hb : b ∈ f₂.graph.order) (h0 : b ≠ entry)
    (hc : Corresponds ν (f.extendRegs f' ρ) V (f.withFresh R) (into b)
      (into' (f.extendBlocks f' β b))) :
    Corresponds ν (f.extendRegs f' ρ) V (f.withFresh R) (F.block b).binding?
      (F'.block (f.extendBlocks f' β b)).binding? := by
  have hg := h.split_graph s.split s'.split
  intro v hv r r' hr hr'
  have hown' := (h.unfilled_renamed s.split s'.split hb).binding?_map h.vars
    (fun w hw => h.unfilled_vars s.split hb hw) hv
  rw [(s.filled hb h0).binding] at hr
  rw [(s'.filled (hg.mem_order hb) (h.entry_ne s s' hb h0)).binding, hown'] at hr'
  cases hown : (f.unfilled n b).binding? v with
  | none =>
    rw [hown] at hr hr'
    exact hc v hv r r' hr hr'
  | some r₀ =>
    rw [hown] at hr hr'
    cases hr
    cases hr'
    exact ⟨h.unfilled_registers s.split hb (Block.mem_registers.mpr (.inr ⟨v, hown⟩)), rfl⟩

/-- In every reached block the bindings correspond. -/
theorem corresponds_order {b : BlockId} (hb : f₂.graph.Reach b) :
    Corresponds ν (f.extendRegs f' ρ) V (f.withFresh R) (F.block b).binding?
      (F'.block (f.extendBlocks f' β b)).binding? := by
  have hclosed := s.split.closed'
  induction hb with
  | entry =>
    rw [extendBlocks_of_lt s.split.entry_lt, h.start]
    exact h.corresponds_entry s s'
  | @step a b ha hab ih =>
    have hao := hclosed.mem_order.mpr ha
    exact h.corresponds_bindings s s' (hclosed.succ_mem_order hao hab) (hclosed.succ_mem hab).1
      (h.corresponds_into s s' hao hab ih)

/-- What comes into a reached block corresponds. -/
theorem corresponds_arrivals {b : BlockId} (hb : b ∈ f₂.graph.order) (h0 : b ≠ entry) :
    Corresponds ν (f.extendRegs f' ρ) V (f.withFresh R) (into b)
      (into' (f.extendBlocks f' β b)) := by
  obtain ⟨p, hp⟩ := s.split.closed'.exists_pred hb h0
  obtain ⟨hpo, hpb⟩ := FlowGraph.mem_preds.mp hp
  exact h.corresponds_into s s' hpo hpb
    (h.corresponds_order s s' (s.split.closed'.mem_order.mp hpo))

/-! ## The code of the blocks -/

omit s' in
theorem param_mem {b : BlockId} (hb : b ∈ f₂.graph.order) {v : Var}
    (hv : v ∈ (f.unfilled n b).params) : v ∈ V :=
  h.unfilled_vars s.split hb (Block.mem_vars.mpr (.inl hv))

theorem arrived {b : BlockId} (hb : b ∈ f₂.graph.order) (h0 : b ≠ entry) {v : Var}
    (hv : v ∈ (f.unfilled n b).params) : ∃ r, r ∈ f.withFresh R ∧ into b v = some r ∧
      into' (f.extendBlocks f' β b) (ν v) = some (f.extendRegs f' ρ r) := by
  have hg := h.split_graph s.split s'.split
  obtain ⟨r, hr⟩ := s.exists_into hb h0 hv
  obtain ⟨r', hr'⟩ := s'.exists_into (hg.mem_order hb) (h.entry_ne s s' hb h0) (v := ν v) (by
    rw [(h.unfilled_renamed s.split s'.split hb).params]
    exact List.mem_map_of_mem hv)
  obtain ⟨hD, rfl⟩ := h.corresponds_arrivals s s' hb h0 v (h.param_mem s hb hv) r r' hr hr'
  exact ⟨r, hD, hr, hr'⟩

/-- The instructions of a reached block are the same under the new names. -/
theorem code_renamed {b : BlockId} (hb : b ∈ f₂.graph.order) :
    (F'.block (f.extendBlocks f' β b)).body = (F.block b).body.map (.rename (f.extendRegs f' ρ)) ∧
    (F'.block (f.extendBlocks f' β b)).exit =
      (F.block b).exit.map (.rename (f.extendBlocks f' β) (f.extendRegs f' ρ)) := by
  have hg := h.split_graph s.split s'.split
  by_cases h0 : b = entry
  · subst h0
    rw [extendBlocks_of_lt s.split.entry_lt, h.start, s.entryBody, s'.entryBody, s.entryExit,
      s'.entryExit, h.route_split s.split s'.split]
    exact ⟨rfl, rfl⟩
  · refine (h.unfilled_renamed s.split s'.split hb).filled (s.filled hb h0)
      (s'.filled (hg.mem_order hb) (h.entry_ne s s' hb h0)) (s.known hb)
        (s'.known (hg.mem_order hb)) fun v hv => ?_
    obtain ⟨r, -, hr, hr'⟩ := h.arrived s s' hb h0 hv
    rw [hr, hr']
    rfl

/-- The registers of a reached block are those of the routine or added ones. -/
theorem code_registers {b : BlockId} (hb : b ∈ f₂.graph.order) {x : BlockInstr}
    (hx : x ∈ (F.block b).code) {r : Reg} (hr : x.Mentions r) : r ∈ f.withFresh R := by
  by_cases h0 : b = entry
  · subst h0
    rw [Block.code, s.entryBody, s.entryExit] at hx
    rw [List.mem_singleton.mp hx] at hr
    rcases hr with hr | hr <;> cases hr
  · rcases (s.filled hb h0).mentions (s.known hb) hx hr with hown | ⟨v, hv, hrv⟩
    · exact h.unfilled_registers s.split hb hown
    · obtain ⟨r', hD, hr', -⟩ := h.arrived s s' hb h0 hv
      cases hrv.symm.trans hr'
      exact hD

/-- A register stands for the same argument. -/
theorem slot_renamed (hslots : slots'.map Slot.var = slots.map fun t => ν t.var)
    (hV : ∀ t ∈ slots, t.var ∈ V) {r : Reg} (hr : r ∈ f.withFresh R) :
    F'.slot? (f.extendRegs f' ρ r) = F.slot? r := by
  by_cases harg : ∃ v ∈ n.of entry, r = ((f₂.regs.size + (n.of entry).idxOf v : Nat) : Reg)
  · obtain ⟨v, hv, rfl⟩ := harg
    have hvV := h.of_mem s.split.needs hv
    have hv' : ν v ∈ n'.of entry := by
      rw [h.of_entry s.split.needs s'.split.needs]
      exact List.mem_map_of_mem hv
    rw [h.argument_renamed s s' hvV, s.slot?_entry hv, s'.slot?_entry hv',
      slotOf?_renamed h.vars hvV hslots hV]
  · have hnone : F.slot? r = none := by
      rw [Option.eq_none_iff_forall_ne_some]
      intro i hi
      obtain ⟨v, hv, hrv, -⟩ := s.exists_of_slot? hi
      exact harg ⟨v, hv, hrv⟩
    have hnone' : F'.slot? (f.extendRegs f' ρ r) = none := by
      rw [Option.eq_none_iff_forall_ne_some]
      intro i hi
      obtain ⟨w, hw, hrw, -⟩ := s'.exists_of_slot? hi
      rw [h.of_entry s.split.needs s'.split.needs] at hw
      obtain ⟨v, hv, rfl⟩ := List.mem_map.mp hw
      rw [← h.argument_renamed s s' (h.of_mem s.split.needs hv)] at hrw
      exact harg ⟨v, hv, h.injOn_regs hr (argument_fresh s v) hrw⟩
    rw [hnone, hnone']

/-- The routines that are laid out have the same code under other names. -/
theorem laidAlike (hslots : slots'.map Slot.var = slots.map fun t => ν t.var)
    (hV : ∀ t ∈ slots, t.var ∈ V) :
    LaidAlike (f.extendBlocks f' β) (f.extendRegs f' ρ) (f.withFresh R) f₂.graph.order F F' where
  layable := s.layable
  blocks := (h.split_graph s.split s'.split).inj
  regs := h.injOn_regs
  nonneg r hr := by
    rcases hr with hr | hr
    · exact (h.made r hr).1
    · exact Int.le_trans (Int.natCast_nonneg _) hr
  body b hb := (h.code_renamed s s' hb).1
  exit b hb := (h.code_renamed s s' hb).2
  mentions b hb x hx r hr := h.code_registers s s' hb hx hr
  slot r hr := h.slot_renamed s s' hslots hV hr

end Routine.Alike

end ProcCompiler
