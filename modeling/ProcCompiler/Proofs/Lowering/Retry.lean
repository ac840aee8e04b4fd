import ProcCompiler.Proofs.Lowering.Allocation
import ProcCompiler.Proofs.Lowering.AnyOrder
/-!
# Arguments can be bound again

Binding arguments is not undone when one is missing: the registers that were made stay, with their
slots, and the entry keeps its bindings. A second try makes new registers for all that the entry
needs and binds the entry anew. The code comes out as if the first try had not been made, because
nothing names the registers that it left behind.

That nothing names them is an assumption on the routine. An instruction may write to a register that
was never made, and that register may be one of those that the arguments get. Whether it is depends
on how many registers there are, so the failed try shows in the code of such a routine
(`retry_stray`).

* `Routine.finish`: the passes from the arguments on.
* `Routine.Recast`: the same blocks with other registers, and the same code
  (`Recast.exists_layout`).
* `bindArguments_residue`: what a failed try leaves behind.
* `finish_retry`: the second try gives the same code and the same number of locals.
-/
namespace ProcCompiler

open Routine

/-- The passes of lowering from the arguments on: the code and the number of its locals. -/
def Routine.finish (f : Routine) (g : FlowGraph) (n : Needs) (slots : List Slot) :
    Except Violation (Except SignatureError (Bytecode × Nat)) := do
  match ← f.bindArguments n slots with
  | (_, some e) => return .error e
  | (f, none) =>
    f.checkNeeds g n
    let f ← f.deliverAll g
    return .ok (← f.layout g)

theorem Routine.finish_eq {f f₃ F : Routine} {g : FlowGraph} {n : Needs} {slots : List Slot}
    {r : Bytecode × Nat} (hb : f.bindArguments n slots = .ok (f₃, none))
    (hc : f₃.checkNeeds g n = .ok ()) (hd : f₃.deliverAll g = .ok F) (hl : F.layout g = .ok r) :
    f.finish g n slots = .ok (.ok r) := by
  simp only [finish, hb, hc, hd, hl, bind, Except.bind, pure, Except.pure]

/-! ## The same blocks with other registers -/

namespace Block

/-- A block is itself under names that are not new. -/
theorem renamed_self {b : Block} {ρ : Reg → Reg} (hl : ∀ e, b.exit = some e → ∀ l ∈ e.labels, 0 ≤ l)
    (hρ : ∀ r ∈ b.registers, r = ρ r) : b.Renamed id id ρ b := by
  have hop : Operand.rename id = id := funext fun o => by cases o <;> rfl
  have hself : b.Renamed id id id b := by
    refine ⟨(List.map_id _).symm, ?_, ?_, fun w s => ?_⟩
    · refine (List.map_id'' (fun a => ?_) _).symm
      rw [Action.rename, hop]
      cases a <;> rfl
    · refine (Option.map_congr fun e he => ?_).trans Option.map_id' |>.symm
      have hlabel : e.mapLabel (relabel id) = e.mapLabel id := Exit.mapLabel_congr fun l hm =>
        Int.toNat_of_nonneg (hl e he l hm)
      have hread : e.mapRead id = e := by cases e <;> rfl
      rw [Exit.rename, hop, hread, hlabel, Exit.mapLabel_id]
    · constructor
      · intro hw
        exact ⟨w, s, hw, rfl, rfl⟩
      · rintro ⟨v, r, hv, rfl, rfl⟩
        exact hv
  exact hself.congr hρ

end Block

namespace Routine

/-- What arrives is bound in some reached block. -/
theorem Arrives.exists_binding {f : Routine} {g : FlowGraph} {b : BlockId} {v : Var} {r : Reg}
    (h : Arrives f g b v r) :
    ∃ p ∈ g.order, (f.block p).binding? v = some r := by
  induction h with
  | bound hp hb _ => exact ⟨_, (FlowGraph.mem_preds.mp hp).1, hb⟩
  | pass _ _ _ _ ih => exact ih

/-- The reached blocks of `f'` are those of `f`, with the registers under their names by `ρ`, which
stand for the same slots. -/
structure Recast (ρ : Reg → Reg) (g : FlowGraph) (f f' : Routine) : Prop where
  name : f'.name = f.name
  vars : f'.vars = f.vars
  size : f'.blocks.size = f.blocks.size
  inj : Function.Injective ρ
  block : ∀ b ∈ g.order, (f.block b).Renamed id id ρ (f'.block b)
  nonneg : ∀ b ∈ g.order, ∀ r ∈ (f.block b).registers, 0 ≤ r
  slot : ∀ r, 0 ≤ r → f'.slot? (ρ r) = f.slot? r

namespace Recast

variable {ρ : Reg → Reg} {g : FlowGraph} {f f' F F' : Routine}
  {into into' : BlockId → Var → Option Reg} (h : Recast ρ g f f')

include h

theorem params {b : BlockId} (hb : b ∈ g.order) : (f'.block b).params = (f.block b).params := by
  rw [(h.block b hb).params, List.map_id]

theorem binding? {b : BlockId} (hb : b ∈ g.order) (v : Var) :
    (f'.block b).binding? v = ((f.block b).binding? v).map ρ :=
  (h.block b hb).binding?_map (V := Set.univ) (Set.injOn_id _) (fun _ _ => trivial) trivial

theorem binding?_eq_none {b : BlockId} (hb : b ∈ g.order) {v : Var} :
    (f'.block b).binding? v = none ↔ (f.block b).binding? v = none := by
  rw [h.binding? hb, Option.map_eq_none_iff]

/-- The same is needed. -/
theorem needed_iff {b : BlockId} {v : Var} : Needed f' g b v ↔ Needed f g b v := by
  constructor
  · intro hn
    induction hn with
    | param hb hv => exact .param hb (h.params hb ▸ hv)
    | back hp hfree _ ih =>
      exact .back hp ((h.binding?_eq_none (FlowGraph.mem_preds.mp hp).1).mp hfree) ih
  · intro hn
    induction hn with
    | param hb hv => exact .param hb ((h.params hb).symm ▸ hv)
    | back hp hfree _ ih =>
      exact .back hp ((h.binding?_eq_none (FlowGraph.mem_preds.mp hp).1).mpr hfree) ih

/-- The check before delivery looks at no register. -/
theorem checkNeeds_ok {n : Needs} (hc : f.checkNeeds g n = .ok ()) :
    f'.checkNeeds g n = .ok () := by
  apply forM_eq_ok
  intro b hb
  have hfree : (fun v => ((f'.block b).binding? v).isNone) = fun v =>
      ((f.block b).binding? v).isNone := by
    funext v
    rw [h.binding? hb, Option.isNone_map]
  have hvar : f'.varName = f.varName := by
    funext v
    simp only [varName, h.vars]
  have hsame : f'.checkBlock g n b = f.checkBlock g n b := by
    simp only [checkBlock, checkBound, h.params hb, hfree, h.name, hvar]
  rw [hsame]
  exact ok_of_forM hc b hb

theorem deliverable (hd : Deliverable f g) (hn : ∀ b, (f'.block b).params.Nodup) :
    Deliverable f' g where
  order := hd.order
  bounded b hb := h.size ▸ hd.bounded b hb
  single b v hv := hd.single b v (h.needed_iff.mp hv)
  entry v hv := hd.entry v (h.needed_iff.mp hv)
  nodup := hn

/-- The same arrives, under its new name. -/
theorem arrives {b : BlockId} {v : Var} {r : Reg} (ha : Arrives f g b v r) :
    Arrives f' g b v (ρ r) := by
  induction ha with
  | bound hp hb hn =>
    exact .bound hp (by rw [h.binding? (FlowGraph.mem_preds.mp hp).1, hb]; rfl)
      (h.needed_iff.mpr hn)
  | pass hp hb hn _ ih =>
    exact .pass hp ((h.binding?_eq_none (FlowGraph.mem_preds.mp hp).1).mpr hb)
      (h.needed_iff.mpr hn) ih

theorem into_eq (hd : Deliverable f g) (hF : Delivered f g into F) (hF' : Delivered f' g into' F')
    (b : BlockId) (v : Var) : into' b v = (into b v).map ρ := by
  by_cases hn : Needed f g b v
  · obtain ⟨r, hr⟩ := exists_arrives hd hn
    rw [(hF.arrives b v r).mpr hr, (hF'.arrives b v (ρ r)).mpr (h.arrives hr)]
    rfl
  · rw [hF.into_eq_none hn, hF'.into_eq_none fun hn' => hn (h.needed_iff.mp hn')]
    rfl

/-- After delivery the routines have the same code under other names. -/
theorem laidAlike (hd : Deliverable f g) (hF : Delivered f g into F) (hF' : Delivered f' g into' F')
    (hl : F.Layable g.order) (hk : ∀ b ∈ g.order, (F'.block b).Known) :
    LaidAlike id ρ {r | 0 ≤ r} g.order F F' := by
  have hcode : ∀ b ∈ g.order, (F'.block b).body = (F.block b).body.map (.rename ρ) ∧
      (F'.block b).exit = (F.block b).exit.map (.rename id ρ) := fun b hb =>
    (h.block b hb).filled (hF.block b (hd.bounded b hb)) (hF'.block b (h.size ▸ hd.bounded b hb))
      (hl.known b hb)
      (hk b hb) fun v _ => h.into_eq hd hF hF' b v
  refine ⟨hl, Set.injOn_id _, h.inj.injOn, fun _ hr => hr, fun b hb => (hcode b hb).1,
    fun b hb => (hcode b hb).2, ?_, ?_⟩
  · intro b hb x hx r hr
    rcases (hF.block b (hd.bounded b hb)).mentions (hl.known b hb) hx hr with hown | ⟨v, -, hv⟩
    · exact h.nonneg b hb r hown
    · obtain ⟨p, hp, hpv⟩ := ((hF.arrives b v r).mp hv).exists_binding
      exact h.nonneg p hp r (Block.mem_registers.mpr (.inr ⟨v, hpv⟩))
  · intro r hr
    have hregs : ∀ {f F : Routine}, F.regs = f.regs → ∀ s, F.slot? s = f.slot? s := by
      intro f F hregs s
      cases s with
      | ofNat k => rw [slot?, slot?, regInfo?, regInfo?, hregs]
      | negSucc k => rfl
    rw [hregs hF.regs, hregs hF'.regs]
    exact h.slot r hr

/-- If one routine can be delivered and laid out then so can the other, and the code is the same. -/
theorem exists_layout (hd : Deliverable f g) (hF : Delivered f g into F) (hl : F.Layable g.order)
    (hv : ∀ b ∈ g.order, ∀ v ∈ (f.block b).params, 0 ≤ v) (hn : ∀ b, (f'.block b).params.Nodup)
    (ht : ∀ b, (f'.block b).Tight) :
    ∃ F', f'.deliverAll g = .ok F' ∧ F'.layout g = F.layout g := by
  have hd' := h.deliverable hd hn
  obtain ⟨n', hn'⟩ :=
    exists_needs (f := f') (g := g) fun b hb v hvb => hv b hb v (h.params hb ▸ hvb)
  obtain ⟨into', F', hdeliver, hF'⟩ := deliverAll_spec hd' hn'
  have hk : ∀ b ∈ g.order, (F'.block b).Known := fun b hb =>
    ((hF'.block b (hd'.bounded b hb)).tight (ht b)).known (hF'.params hd' hb)
  have halike := h.laidAlike hd hF hF' hl hk
  have hl' := halike.layable_of_known hk
  have hcode := halike.placedCode
  have hlocals := halike.length_locals
  rw [List.map_id] at hl' hcode hlocals
  exact ⟨F', hdeliver, by rw [hl'.layout_eq, hl.layout_eq, hcode, hlocals]⟩

end Recast

end Routine

/-! ## What a failed try leaves behind -/

/-- Without all its slots the binding of arguments still binds what has one. -/
theorem bindArguments_residue {f f' : Routine} {n : Needs} {slots : List Slot} {e : SignatureError}
    (hb : (f.block entry).Bare) (h0 : entry < f.blocks.size) (hn : (n.of entry).Nodup)
    (h : f.bindArguments n slots = .ok (f', some e)) :
    Bound f slots ((n.of entry).filter fun v => (slotOf? slots v).isSome) f' := by
  obtain ⟨f₁, hfold, hbound⟩ := foldl_bindSlot hb h0 slots hn
  have hopen : (f.block entry).isComplete = false := by simp [Block.isComplete, hb.isOpen]
  rw [bindArguments, hopen, hfold] at h
  simp only [Bool.false_eq_true, if_false] at h
  split at h
  · cases h
  · rename_i heq
    cases heq
    cases h
    exact hbound

/-- The registers from `base` on move up past `residue` others. -/
def pastResidue (base residue : Nat) (r : Reg) : Reg := if r < base then r else r + residue

theorem pastResidue_of_lt {base residue : Nat} {r : Reg} (h : r < base) :
    pastResidue base residue r = r := if_pos h

theorem pastResidue_add (base residue i : Nat) :
    pastResidue base residue ((base + i : Nat) : Reg) = ((base + residue + i : Nat) : Reg) := by
  have hge : ¬ ((base + i : Nat) : Reg) < (base : Reg) :=
    Int.not_lt.mpr (Int.ofNat_le.mpr (Nat.le_add_right _ _))
  rw [pastResidue, if_neg hge, ← Int.natCast_add, Nat.add_right_comm]

theorem injective_pastResidue (base residue : Nat) :
    Function.Injective (pastResidue base residue) := by
  intro r s he
  unfold pastResidue at he
  have hr : (0 : Int) ≤ residue := Int.natCast_nonneg residue
  split at he <;> split at he <;> simp only [Reg] at * <;> omega

/-- A register stands for the same slot where it moved to. -/
theorem slot?_pastResidue {f f' : Routine} {old residue new : List RegInfo}
    (h : f.regs.toList = old ++ new) (h' : f'.regs.toList = old ++ residue ++ new) {r : Reg}
    (hr : 0 ≤ r) :
    f'.slot? (pastResidue old.length residue.length r) = f.slot? r := by
  have hget : ∀ (F : Routine) (k : Nat), F.slot? (k : Reg) = F.regs.toList[k]?.bind (·.slot) :=
    fun F k => by
    rw [Array.getElem?_toList]
    rfl
  obtain ⟨k, rfl⟩ := Int.eq_ofNat_of_zero_le hr
  rcases Nat.lt_or_ge k old.length with hlt | hge
  · rw [pastResidue_of_lt (Int.ofNat_lt.mpr hlt), hget, hget, h, h', List.append_assoc,
      List.getElem?_append_left hlt, List.getElem?_append_left hlt]
  · obtain ⟨i, rfl⟩ := Nat.exists_eq_add_of_le hge
    rw [pastResidue_add, hget, hget, h, h', List.getElem?_append_right (Nat.le_add_right _ _),
      List.getElem?_append_right (by rw [List.length_append]; exact Nat.le_add_right _ _),
      List.length_append, Nat.add_sub_cancel_left, Nat.add_sub_cancel_left]

/-! ## The second try -/

/-- The registers of a routine that is ready for delivery. -/
theorem Staged.nonneg_registers {f f₂ f₃ : Routine} {n : Needs} {slots : List Slot}
    (h : Staged f n slots f₂ f₃) (ha : f₂.Allocated) {b : BlockId} (hb : b ∈ f₂.graph.order)
    {r : Reg} (hr : r ∈ (f₃.block b).registers) :
    0 ≤ r := by
  by_cases h0 : b = entry
  · subst h0
    rcases Block.mem_registers.mp hr with ⟨x, hx, hr⟩ | ⟨v, hv⟩
    · rw [Block.code, h.entered.body, h.entered.exit] at hx
      rw [List.mem_singleton.mp hx] at hr
      rcases hr with hr | hr <;> cases hr
    · rw [h.binding?_entry] at hv
      split at hv
      · cases hv
        exact Int.natCast_nonneg _
      · cases hv
  · rw [h.entered.other b h0] at hr
    exact (ha b (h.split.closed'.mem_order.mp hb) r hr).1

namespace Staged

variable {f f₂ f₃ f₂' f₃' : Routine} {n : Needs} {slots slots' : List Slot} {vs : List Var}
  (h : Staged f n slots f₂ f₃) (hb : Bound f₂ slots' vs f₂') (hvs : ∀ v ∈ vs, v ∈ n.of entry)
  (h' : Entered f₂' slots (n.of entry) f₃')

include h hb h'

theorem block_retry {b : BlockId} (h0 : b ≠ entry) : f₃'.block b = f₃.block b := by
  rw [h'.other b h0, hb.other b h0, h.entered.other b h0]

theorem nodup_retry (b : BlockId) : (f₃'.block b).params.Nodup := by
  by_cases h0 : b = entry
  · subst h0
    rw [h'.params]
    exact List.nodup_nil
  · rw [h.block_retry hb h' h0]
    exact h.nodup_params b

theorem tight_retry (b : BlockId) : (f₃'.block b).Tight := by
  by_cases h0 : b = entry
  · subst h0
    exact Block.tight_jump h'.body h'.exit
  · rw [h.block_retry hb h' h0]
    exact h.tight b

theorem slot?_retry {r : Reg} (hr : 0 ≤ r) :
    f₃'.slot? (pastResidue f₂.regs.size vs.length r) = f₃.slot? r := by
  have hregs := h'.regs
  rw [hb.regs] at hregs
  have hslot := slot?_pastResidue h.entered.regs hregs hr
  rwa [List.length_map, Array.length_toList] at hslot

include hvs

/-- The entry binds the registers of the second try. -/
theorem binding?_retry (v : Var) : (f₃'.block entry).binding? v =
    ((f₃.block entry).binding? v).map (pastResidue f₂.regs.size vs.length) := by
  rw [h'.binding, h.entered.binding, hb.regs_size, hb.binding]
  split
  · exact congrArg some (pastResidue_add _ _ _).symm
  · rename_i hv
    have hfree := h.entered.binding v
    rw [h.binding?_entry, if_neg hv, if_neg hv] at hfree
    rw [if_neg fun hm => hv (hvs v hm), ← hfree]
    rfl

/-- Past the entry nothing changes, if all registers there were made before the first try. -/
theorem recast_retry (ha : f₂.Allocated) :
    Recast (pastResidue f₂.regs.size vs.length) f₂.graph f₃ f₃' where
  name := by rw [h'.name, hb.name, h.entered.name]
  vars := by rw [h'.vars, hb.vars, h.entered.vars]
  size := by rw [h'.size, hb.size, h.entered.size]
  inj := injective_pastResidue _ _
  nonneg _ ho _ hr := h.nonneg_registers ha ho hr
  slot _ hr := h.slot?_retry hb h' hr
  block b ho := by
    by_cases h0 : b = entry
    · subst h0
      refine ⟨by rw [h'.params, h.entered.params]; rfl, by rw [h'.body, h.entered.body]; rfl, ?_,
        fun w s => ?_⟩
      · rw [h'.exit, h.entered.exit, hb.route]
        rfl
      · rw [h.binding?_retry hb hvs h', Option.map_eq_some_iff]
        constructor
        · rintro ⟨r, hr, rfl⟩
          exact ⟨w, r, hr, rfl, rfl⟩
        · rintro ⟨v, r, hv, rfl, rfl⟩
          exact ⟨r, hv, rfl⟩
    · rw [h.block_retry hb h' h0, h.entered.other b h0]
      refine Block.renamed_self (fun e he l hl => ?_) fun r hr => ?_
      · obtain ⟨t, rfl, -⟩ := h.split.closed'.exists_succ ho (l := l) (by rw [leads, he]; exact hl)
        exact Int.natCast_nonneg t
      · exact (pastResidue_of_lt (ha b (h.split.closed'.mem_order.mp ho) r hr).2).symm

end Staged

/-- Take a well-formed routine whose reached blocks name only registers that were made, when it is
ready for its arguments. If they are bound with slots that do not suffice, and then with slots that
do, the passes that follow succeed, and the code and the number of locals are what they are without
the first try. -/
theorem finish_retry {f : Routine} (hf : f.WellFormed) (ha : f.Allocated) {tried slots : List Slot}
    {n : Needs} {f₂ f₂' : Routine} {g : FlowGraph} {e : SignatureError}
    (hp : f.Passes tried (.split n f₂)) (hg : f₂.analyze = .ok g)
    (hfail : f₂.bindArguments n tried = .ok (f₂', some e))
    (hslots : ∀ v ∈ n.of entry, v ∈ slots.map Slot.var) :
    ∃ r, f₂.finish g n slots = .ok (.ok r) ∧ f₂'.finish g n slots = .ok (.ok r) := by
  have hready := hf.growing.ready hf.closed
  obtain rfl := eq_graph_of_analyze hg
  have hsplit := hp.splitOf
  have hbare := hready.bare_split hsplit
  have h0 := hsplit.old_lt hsplit.entry_lt
  have hnodup := Needs.nodup_of (nodup_sites hsplit.needs) entry
  have hmade := hsplit.allocated (hready.closed.allocated_addExit ha)
  have hb := bindArguments_residue hbare h0 hnodup hfail
  -- the second try starts from an entry that is still open, so both ways bind all that the entry
  -- needs
  obtain ⟨f₃, hbind, -⟩ := bindArguments_ok hbare h0 hnodup hslots
  obtain ⟨f₃', hbind', h'⟩ := bindArguments_ok hb.bare (hb.size.symm ▸ h0) hnodup hslots
  have hstaged := hready.staged hsplit hbind
  obtain ⟨n', hn'⟩ := hstaged.exists_needs
  obtain ⟨into, F, hdeliver, hF⟩ := deliverAll_spec hstaged.deliverable hn'
  have hlayable := (hstaged.settled hF).layable
  have hrecast := hstaged.recast_retry hb (fun _ hv => List.mem_of_mem_filter hv) h' hmade
  obtain ⟨F', hdeliver', hlayout'⟩ := hrecast.exists_layout hstaged.deliverable hF hlayable
    (fun _ ho _ hv => hstaged.served.nonneg (fun b _ => hstaged.ready.nonneg b) ho hv)
      (hstaged.nodup_retry hb h')
    (hstaged.tight_retry hb h')
  exact ⟨_, finish_eq hbind hstaged.checkNeeds_ok hdeliver hlayable.layout_eq,
    finish_eq hbind' (hrecast.checkNeeds_ok hstaged.checkNeeds_ok) hdeliver'
    (hlayout'.trans hlayable.layout_eq)⟩

/-- Reads off a computation that a try fails, and what it leaves. -/
theorem exists_failed_try {f : Routine} (hf : f.Closed) (slots : List Slot)
    (p : Needs → Routine → Routine → Bool)
    (h : (((f.addExit f.graph).1.needs (f.addExit f.graph).1.graph).toOption.any fun n =>
      ((f.addExit f.graph).1.splitJoins (f.addExit f.graph).1.graph n).toOption.any fun s =>
        (s.1.bindArguments n slots).toOption.any fun t => t.2.isSome && p n s.1 t.1) = true) :
    ∃ n f₂ f₂' e, f.Passes slots (.split n f₂) ∧ f₂.analyze = .ok f₂.graph ∧
      f₂.bindArguments n slots = .ok (f₂', some e) ∧ p n f₂ f₂' = true := by
  obtain ⟨n, hn, h⟩ := exists_of_any h
  obtain ⟨⟨f₂, edges⟩, hs, h⟩ := exists_of_any h
  obtain ⟨⟨f₂', missing⟩, hb, h⟩ := exists_of_any h
  rw [Bool.and_eq_true, Option.isSome_iff_exists] at h
  obtain ⟨⟨e, rfl⟩, hp⟩ := h
  have hsplit := (splitOf_of_splitJoins hf.addExit.analyze_eq hn hs).1
  exact ⟨n, f₂, f₂', e, .joins (.exit hf.analyze_eq) hf.addExit.analyze_eq hn hs,
    hsplit.closed'.analyze_eq, hb, hp⟩

/-- The first try has a slot for `x` only, its first, and the second try has `x` in its second
slot. -/
theorem finish_retry_loop : loopRoutine.WellFormed ∧ loopRoutine.Allocated ∧ ∃ n f₂ f₂' g e,
    loopRoutine.Passes (loopSlots.take 1) (.split n f₂) ∧ f₂.analyze = .ok g ∧
    f₂.bindArguments n (loopSlots.take 1) = .ok (f₂', some e) ∧
    (f₂'.slot? f₂.regs.size = some 0 ∧ slotOf? loopSlots.reverse 0 = some 1) ∧
    (∀ v ∈ n.of entry, v ∈ loopSlots.reverse.map Slot.var) ∧
    ∃ r, f₂.finish g n loopSlots.reverse = .ok (.ok r) ∧
    f₂'.finish g n loopSlots.reverse = .ok (.ok r) := by
  obtain ⟨n, f₂, f₂', e, hp, hg, hb, h⟩ :=
    exists_failed_try wellFormed_loopRoutine.closed (loopSlots.take 1)
    (fun n f₂ f₂' => f₂'.slot? f₂.regs.size = some 0 ∧
      ∀ v ∈ n.of entry, v ∈ loopSlots.reverse.map Slot.var)
    (by decide +kernel)
  obtain ⟨hresidue, hslots⟩ := of_decide_eq_true h
  exact ⟨wellFormed_loopRoutine, allocated_loopRoutine, n, f₂, f₂', _, e, hp, hg, hb,
    ⟨hresidue, by decide⟩, hslots,
    finish_retry wellFormed_loopRoutine allocated_loopRoutine hp hg hb hslots⟩

/-- Copies of `x` and `y` to registers that were not made. -/
def strayRoutine : Routine := (Session.run { routine := .new "stray" }
  [.newVar "x", .newVar "y", .createBlock, .read 1 0, .read 1 1,
    .add 1 (.action (.move 2 (.param 0))), .add 1 (.action (.move 3 (.param 1))), .add 1
    (.exit .ret)]).routine

theorem wellFormed_strayRoutine : strayRoutine.WellFormed where
  built := ⟨"stray", _, by decide +kernel, rfl⟩
  body := by decide +kernel
  complete := by decide +kernel
  target := by decide +kernel

/-- The code when the arguments are bound at once: they get the registers 0 and 1. -/
def strayCode : Bytecode :=
  [.action (.move (.frame 0) (.arg 0)), .action (.move (.frame 1) (.arg 1)), .exit .ret]

/-- The code when they are bound at a second try: they get the registers 1 and 2, and the first copy
writes over `y`. -/
def overwritingCode : Bytecode :=
  [.action (.move (.arg 1) (.arg 0)), .action (.move (.frame 0) (.arg 1)), .exit .ret]

/-- A failed try changes the code of a routine that names registers which were not made. -/
theorem retry_stray : strayRoutine.WellFormed ∧ ∃ n f₂ f₂' g e,
    strayRoutine.Passes (loopSlots.take 1) (.split n f₂) ∧ f₂.analyze = .ok g ∧
    f₂.bindArguments n (loopSlots.take 1) = .ok (f₂', some e) ∧
    (∀ v ∈ n.of entry, v ∈ loopSlots.map Slot.var) ∧
    f₂.finish g n loopSlots = .ok (.ok (strayCode, 2)) ∧
    f₂'.finish g n loopSlots = .ok (.ok (overwritingCode, 1)) ∧
    ¬ ∃ r, f₂.finish g n loopSlots = .ok (.ok r) ∧ f₂'.finish g n loopSlots = .ok (.ok r) := by
  obtain ⟨n, f₂, f₂', e, hp, hg, hb, h⟩ :=
    exists_failed_try wellFormed_strayRoutine.closed (loopSlots.take 1)
    (fun n f₂ f₂' => decide (∀ v ∈ n.of entry, v ∈ loopSlots.map Slot.var) &&
      decide (f₂.finish f₂.graph n loopSlots = .ok (.ok (strayCode, 2))) &&
      decide (f₂'.finish f₂.graph n loopSlots = .ok (.ok (overwritingCode, 1)))) (by decide +kernel)
  simp only [Bool.and_eq_true, decide_eq_true_eq] at h
  obtain ⟨⟨hslots, hfirst⟩, hsecond⟩ := h
  refine ⟨wellFormed_strayRoutine, n, f₂, f₂', _, e, hp, hg, hb, hslots, hfirst, hsecond, ?_⟩
  rintro ⟨r, hr, hr'⟩
  cases hr.symm.trans hfirst
  cases hr'.symm.trans hsecond

end ProcCompiler
