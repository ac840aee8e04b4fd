import ProcCompiler.Proofs.Graph.Needs
import ProcCompiler.Proofs.Lowering.Transit
/-!
# Delivery brings every need its one register

`Arrives f g b v r` says where the register of a need comes from: from the predecessor that binds
the variable, or from what arrives there. In a routine that is ready for delivery (`Deliverable`) a
block that needs something has one predecessor and the entry needs nothing, so every need has
exactly one register. The queue of deliveries then never meets a second source and leaves no need
behind.

* `Arrives.unique`, `exists_arrives`: one register for each need.
* `Inv.deliver`: what one offer of a delivery preserves.
* `Inv.make`: what one delivery preserves, whichever of the queue it is.
* `Inv.run`: what the whole queue preserves.
* `deliverAll_spec`: delivery succeeds, and every block received exactly what arrives.
-/
namespace ProcCompiler

namespace Routine

/-- The register `r` of `v` reaches the block `b`, which needs it. -/
inductive Arrives (f : Routine) (g : FlowGraph) : BlockId → Var → Reg → Prop where
  | bound {p b : BlockId} {v : Var} {r : Reg} (hp : p ∈ g.preds b)
      (hb : (f.block p).binding? v = some r) (hn : Needed f g b v) : Arrives f g b v r
  | pass {p b : BlockId} {v : Var} {r : Reg} (hp : p ∈ g.preds b)
      (hb : (f.block p).binding? v = none) (hn : Needed f g b v) (h : Arrives f g p v r) :
        Arrives f g b v r

/-- A block that needs something has one predecessor, and the entry needs nothing. -/
structure Deliverable (f : Routine) (g : FlowGraph) : Prop where
  order : ∀ b, b ∈ g.order ↔ g.Reach b
  bounded : ∀ b ∈ g.order, b < f.blocks.size
  single : ∀ b v, Needed f g b v → ∀ p ∈ g.preds b, ∀ q ∈ g.preds b, p = q
  entry : ∀ v, ¬ Needed f g entry v
  nodup : ∀ b, (f.block b).params.Nodup

theorem Arrives.needed {f : Routine} {g : FlowGraph} {b : BlockId} {v : Var} {r : Reg}
    (h : Arrives f g b v r) : Needed f g b v := by
  cases h <;> assumption

variable {f : Routine} {g : FlowGraph}

/-- No need has two registers. -/
theorem Arrives.unique (hf : Deliverable f g) {b : BlockId} {v : Var} {r s : Reg}
    (hr : Arrives f g b v r) (hs : Arrives f g b v s) : r = s := by
  induction hr with
  | bound hp hb hn =>
    cases hs with
    | bound hp' hb' _ =>
      rw [hf.single _ _ hn _ hp _ hp', hb'] at hb
      exact (Option.some.inj hb).symm
    | pass hp' hb' _ _ => rw [hf.single _ _ hn _ hp _ hp', hb'] at hb; cases hb
  | pass hp hb hn _ ih =>
    cases hs with
    | bound hp' hb' _ => rw [hf.single _ _ hn _ hp _ hp', hb'] at hb; cases hb
    | pass hp' _ _ h' => exact ih (by rw [hf.single _ _ hn _ hp _ hp']; exact h')

/-- Every need has a register: the path from the entry that leads to it passes a binding. -/
theorem exists_arrives (hf : Deliverable f g) {b : BlockId} {v : Var} (hn : Needed f g b v) :
    ∃ r, Arrives f g b v r := by
  have hr := (hf.order b).mp hn.mem_order
  induction hr with
  | entry => exact absurd hn (hf.entry v)
  | @step a b ha hab ih =>
    have hp : a ∈ g.preds b := FlowGraph.mem_preds.mpr ⟨(hf.order a).mpr ha, hab⟩
    cases hb : (f.block a).binding? v with
    | some r => exact ⟨r, .bound hp hb hn⟩
    | none =>
      obtain ⟨r, h⟩ := ih (.back hp hb hn)
      exact ⟨r, .pass hp hb hn h⟩

/-- A block hands on what it binds, or else what arrives. -/
theorem arrives_succ {p b : BlockId} {v : Var} {r : Reg} (hp : p ∈ g.preds b) (hn : Needed f g b v)
    (h : (f.block p).binding? v = some r ∨ (f.block p).binding? v = none ∧ Arrives f g p v r) :
    Arrives f g b v r := by
  rcases h with h | ⟨hb, h⟩
  · exact .bound hp h hn
  · exact .pass hp hb hn h

end Routine

open Routine

namespace Transit

/-- What is known of delivery after every step. One delivery may be in flight, offered to some
blocks so far. -/
structure Inv (f : Routine) (g : FlowGraph) (flight : Option (Delivery × List BlockId))
    (t : Transit) :
    Prop where
  name : t.routine.name = f.name
  vars : t.routine.vars = f.vars
  regs : t.routine.regs = f.regs
  route : t.routine.route = f.route
  size : t.routine.blocks.size = f.blocks.size
  arrives : ∀ b v r, t.got b v = some r → Arrives f g b v r
  waiting : ∀ b v, { block := b, var := v } ∈ t.waiting ↔ Needed f g b v ∧ t.got b v = none
  blocks : ∀ b < f.blocks.size, Block.Filled (f.block b) (t.routine.block b) (t.got b)
  queue : ∀ d : Delivery, (d ∈ t.queue ∨ ∃ dests, flight = some (d, dests)) →
    d.site.block ∈ g.order ∧ (t.routine.block d.site.block).binding? d.site.var = some d.reg
  made : ∀ b ∈ g.order, ∀ v r, (t.routine.block b).binding? v = some r →
    (∃ d ∈ t.queue, d.site = ⟨b, v⟩) ∨ ∀ c ∈ g.succs b, Needed f g c v →
      (t.got c v).isSome ∨ ∃ d dests, flight = some (d, dests) ∧ d.site = ⟨b, v⟩ ∧ c ∉ dests

variable {f : Routine} {g : FlowGraph} {t : Transit} {d : Delivery} {dests : List BlockId}

/-- The register of a delivery in flight arrives at the successors that need it. -/
theorem Inv.arrives_flight (hf : Deliverable f g) (h : Inv f g (some (d, dests)) t) {c : BlockId}
    (hc : c ∈ g.succs d.site.block) (hn : Needed f g c d.site.var) :
    Arrives f g c d.site.var d.reg := by
  obtain ⟨ho, hb⟩ := h.queue d (.inr ⟨dests, rfl⟩)
  have hp : d.site.block ∈ g.preds c := FlowGraph.mem_preds.mpr ⟨ho, hc⟩
  refine arrives_succ hp hn ?_
  rw [(h.blocks _ (hf.bounded _ ho)).binding, Option.or_eq_some_iff] at hb
  rcases hb with hb | ⟨hb, ha⟩
  · exact .inl hb
  · exact .inr ⟨hb, h.arrives _ _ _ ha⟩

/-- An offer that nobody has to take up is noted. -/
theorem Inv.offered (h : Inv f g (some (d, dests)) t) {c : BlockId}
    (hc : Needed f g c d.site.var → (t.got c d.site.var).isSome) :
    Inv f g (some (d, dests ++ [c])) t := by
  refine ⟨h.name, h.vars, h.regs, h.route, h.size, h.arrives, h.waiting, h.blocks, ?_, ?_⟩
  · intro e he
    refine h.queue e ?_
    rcases he with he | ⟨ds, he⟩
    · exact .inl he
    · cases he; exact .inr ⟨dests, rfl⟩
  · intro b hb v r hbv
    refine (h.made b hb v r hbv).imp id fun hs x hx hn => ?_
    rcases hs x hx hn with ha | ⟨e, ds, he, hsite, hm⟩
    · exact .inl ha
    · cases he
      by_cases hxc : x = c
      · subst hxc
        have hv : d.site.var = v := by rw [hsite]
        rw [← hv] at hn ⊢
        exact .inl (hc hn)
      · exact .inr ⟨d, _, rfl, hsite, by simp [hm, hxc]⟩

/-! ## An accepted offer -/

/-- Accepting an offer that the block needs keeps the invariant. -/
theorem Inv.accept (hf : Deliverable f g) (h : Inv f g (some (d, dests)) t) {c : BlockId}
    (hc : c ∈ g.succs d.site.block) (hw : { block := c, var := d.site.var } ∈ t.waiting) :
    Inv f g (some (d, dests ++ [c])) (t.accept g ⟨c, d.site.var⟩ d.reg) := by
  obtain ⟨hn, hgot⟩ := (h.waiting _ _).mp hw
  have hco := hn.mem_order
  have hlt := hf.bounded c hco
  have hlt' : c < t.routine.blocks.size := by rw [h.size]; exact hlt
  have harr := h.arrives_flight hf hc hn
  have hmono : ∀ b v, (t.got b v).isSome → ((t.accept g ⟨c, d.site.var⟩ d.reg).got b v).isSome := by
    intro b v hs
    rw [got_accept]
    split
    · rfl
    · exact hs
  refine ⟨h.name, h.vars, h.regs, h.route, ?_, ?_, ?_, ?_, ?_, ?_⟩
  · show (t.routine.modifyBlock c _).blocks.size = _
    rw [size_modifyBlock, h.size]
  · intro b v r hr
    rw [got_accept] at hr
    split at hr
    · rename_i he
      cases hr
      obtain ⟨rfl, rfl⟩ := Site.mk.inj he
      exact harr
    · exact h.arrives b v r hr
  · intro b v
    rw [mem_waiting_accept, h.waiting, got_accept]
    constructor
    · rintro ⟨hne, hnb, hg⟩
      exact ⟨hnb, by rw [if_neg (Ne.symm hne)]; exact hg⟩
    · rintro ⟨hnb, hg⟩
      split at hg
      · cases hg
      · rename_i hne
        exact ⟨Ne.symm hne, hnb, hg⟩
  · intro b hb
    by_cases hbc : b = c
    · subst hbc
      rw [block_accept_self hlt', got_accept_block]
      exact (h.blocks b hb).receive (hf.nodup b) hgot d.reg
    · rw [block_accept_ne t hbc, got_accept_ne t hbc]
      exact h.blocks b hb
  · intro e he
    rw [mem_queue_accept, or_assoc] at he
    rcases he with rfl | he
    · exact ⟨hco, binding?_accept_self hlt' d.site.var d.reg⟩
    · obtain ⟨ho, hb⟩ := h.queue e (by
        rcases he with he | ⟨ds, he⟩
        · exact .inl he
        · cases he; exact .inr ⟨dests, rfl⟩)
      exact ⟨ho, binding?_accept hb hlt'⟩
  · intro b hb v r hbv
    by_cases hnew : b = c ∧ v = d.site.var
    · obtain ⟨rfl, rfl⟩ := hnew
      exact .inl ⟨_, mem_queue_accept.mpr (.inl rfl), rfl⟩
    · rcases h.made b hb v r (binding?_of_accept hbv hlt' hnew) with ⟨e, he, hsite⟩ | hs
      · exact .inl ⟨e, mem_queue_accept.mpr (.inr he), hsite⟩
      · right
        intro x hx hnx
        rcases hs x hx hnx with ha | ⟨e, ds, he, hsite, hm⟩
        · exact .inl (hmono _ _ ha)
        · cases he
          by_cases hxc : x = c
          · subst hxc
            left
            have hv : d.site.var = v := by rw [hsite]
            rw [got_accept, if_pos (by rw [hv])]
            rfl
          · exact .inr ⟨d, _, rfl, hsite, by simp [hm, hxc]⟩

/-! ## One delivery, and all of them -/

/-- An offer never meets a second source, and keeps the invariant. -/
theorem Inv.deliver (hf : Deliverable f g) (h : Inv f g (some (d, dests)) t) {c : BlockId}
    (hc : c ∈ g.succs d.site.block) :
    ∃ t', t.deliver g d c = .ok t' ∧ Inv f g (some (d, dests ++ [c])) t' := by
  by_cases hw : { block := c, var := d.site.var } ∈ t.waiting
  · have hlt : c < t.routine.blocks.size :=
      h.size ▸ hf.bounded c ((h.waiting _ _).mp hw).1.mem_order
    refine ⟨_, ?_, h.accept hf hc hw⟩
    simp only [Transit.deliver, if_pos hw]
    exact push_arrive (s := { block := c, var := d.site.var }) hlt d.reg
  · simp only [Transit.deliver, if_neg hw]
    cases hg : t.got c d.site.var with
    | none =>
      have hg' : t.arrived[({ block := c, var := d.site.var } : Site)]? = none := hg
      rw [hg']
      refine ⟨t, rfl, h.offered fun hn => ?_⟩
      exact absurd ((h.waiting _ _).mpr ⟨hn, hg⟩) hw
    | some r =>
      have hg' : t.arrived[({ block := c, var := d.site.var } : Site)]? = some r := hg
      have harr := h.arrives _ _ _ hg
      rw [hg']
      have hr : r = d.reg := harr.unique hf (h.arrives_flight hf hc harr.needed)
      exact ⟨t, if_pos hr, h.offered fun _ => by rw [hg]; rfl⟩

/-- Taking a delivery out of the queue, wherever it stands there, puts it in flight. -/
theorem Inv.takeOff {queue : List Delivery} (h : Inv f g none t)
    (hq : ∀ e, e ∈ t.queue ↔ e = d ∨ e ∈ queue) :
    Inv f g (some (d, [])) { t with queue } := by
  refine ⟨h.name, h.vars, h.regs, h.route, h.size, h.arrives, h.waiting, h.blocks, ?_, ?_⟩
  · intro e he
    refine h.queue e (.inl ((hq e).mpr ?_))
    rcases he with he | ⟨ds, he⟩
    · exact .inr he
    · cases he; exact .inl rfl
  · intro b hb v r hbv
    rcases h.made b hb v r hbv with ⟨e, he, hsite⟩ | hs
    · rcases (hq e).mp he with rfl | he
      · exact .inr fun c _ _ => .inr ⟨e, [], rfl, hsite, by simp⟩
      · exact .inl ⟨e, he, hsite⟩
    · right
      intro c hc hn
      rcases hs c hc hn with ha | ⟨e, ds, he, -⟩
      · exact .inl ha
      · cases he

/-- A delivery that was offered to all successors is made. -/
theorem Inv.landed (h : Inv f g (some (d, g.succs d.site.block)) t) : Inv f g none t := by
  refine ⟨h.name, h.vars, h.regs, h.route, h.size, h.arrives, h.waiting, h.blocks, ?_, ?_⟩
  · intro e he
    rcases he with he | ⟨ds, he⟩
    · exact h.queue e (.inl he)
    · cases he
  · intro b hb v r hbv
    refine (h.made b hb v r hbv).imp id fun hs c hc hn => ?_
    rcases hs c hc hn with ha | ⟨e, ds, he, hsite, hm⟩
    · exact .inl ha
    · cases he
      rw [hsite] at hm
      exact absurd hc hm

/-- Any delivery of the queue can be made, and keeps the invariant. -/
theorem Inv.make (hf : Deliverable f g) (h : Inv f g none t) (d : Delivery) (queue : List Delivery)
    (hq : ∀ e, e ∈ t.queue ↔ e = d ∨ e ∈ queue) :
    ∃ t', (g.succs d.site.block).foldlM (Transit.deliver g d) { t with queue } = .ok t' ∧
      Inv f g none t' := by
  obtain ⟨t', ht', hi⟩ := foldlM_ok (Transit.deliver g d) (fun ds t => Inv f g (some (d, ds)) t)
    (g.succs d.site.block) { t with queue } (h.takeOff hq) fun ds c rest s hs hi =>
      hi.deliver hf (by rw [hs]; simp)
  exact ⟨t', ht', hi.landed⟩

/-- All deliveries are made, and none is left. -/
theorem Inv.run (hf : Deliverable f g) (h : Inv f g none t) :
    ∃ t', t.run g = .ok t' ∧ Inv f g none t' ∧ t'.queue = [] := by
  fun_induction Transit.run g t with
  | case1 t hq => exact ⟨t, rfl, h, hq⟩
  | case2 t d queue hq e he =>
    obtain ⟨t', ht', -⟩ := h.make hf d queue fun x => by rw [hq, List.mem_cons]
    rw [ht'] at he
    cases he
  | case3 t d queue hq t' ht' ih =>
    obtain ⟨t₁, ht₁, hi⟩ := h.make hf d queue fun x => by rw [hq, List.mem_cons]
    rw [ht₁] at ht'
    cases ht'
    exact ih hi

/-- With nothing left in the queue a binding has reached every successor that needs it. -/
theorem Inv.got_of_binding (h : Inv f g none t) (hq : t.queue = []) {p b : BlockId} {v : Var}
    {r : Reg} (hp : p ∈ g.preds b) (hn : Needed f g b v)
    (hr : (t.routine.block p).binding? v = some r) :
    (t.got b v).isSome := by
  obtain ⟨ho, hs⟩ := FlowGraph.mem_preds.mp hp
  rcases h.made p ho v r hr with ⟨d, hd, -⟩ | hs'
  · rw [hq] at hd; cases hd
  · rcases hs' b hs hn with ha | ⟨d, ds, hd, -⟩
    · exact ha
    · cases hd

/-- With nothing left in the queue every need has its register. -/
theorem Inv.got_of_needed (hf : Deliverable f g) (h : Inv f g none t) (hq : t.queue = [])
    {b : BlockId} {v : Var} (hn : Needed f g b v) : (t.got b v).isSome := by
  obtain ⟨r, hr⟩ := exists_arrives hf hn
  induction hr with
  | @bound p b v r hp hb _ =>
    refine h.got_of_binding (r := r) hq hp hn ?_
    rw [(h.blocks p (hf.bounded p (FlowGraph.mem_preds.mp hp).1)).binding, hb]; rfl
  | @pass p b v r hp hb _ hpr ih =>
    obtain ⟨x, hx⟩ := Option.isSome_iff_exists.mp (ih hpr.needed)
    refine h.got_of_binding (r := x) hq hp hn ?_
    rw [(h.blocks p (hf.bounded p (FlowGraph.mem_preds.mp hp).1)).binding, hb, hx]; rfl

/-- The first state satisfies the invariant. -/
theorem inv_start {n : Needs} (hn : f.needs g = .ok n) : Inv f g none (start f g n) := by
  have hgot : ∀ b, (start f g n).got b = fun _ => none := by
    intro b
    funext v
    simp [start, got]
  refine ⟨rfl, rfl, rfl, rfl, rfl, ?_, ?_, ?_, ?_, ?_⟩
  · intro b v r hr
    rw [hgot] at hr
    cases hr
  · intro b v
    simp only [start, Std.ExtTreeSet.mem_ofList, List.contains_iff_mem, mem_sites_iff hn]
    simp [got]
  · intro b _
    rw [hgot]
    exact Block.filled_refl _
  · intro d hd
    rcases hd with hd | ⟨ds, hd⟩
    · simp only [start, mem_foldr_enqueue, List.mem_flatMap] at hd
      obtain ⟨b, hb, hd⟩ := hd
      obtain ⟨v, r, hr, rfl⟩ := mem_bindingDeliveries.mp hd
      exact ⟨hb, hr⟩
    · cases hd
  · intro b hb v r hr
    refine .inl ⟨delivery g b v r, ?_, rfl⟩
    simp only [start, mem_foldr_enqueue, List.mem_flatMap]
    exact ⟨b, hb, mem_bindingDeliveries.mpr ⟨v, r, hr, rfl⟩⟩

end Transit

/-- `f'` is `f` after delivery: every block received exactly what arrives there. -/
structure Delivered (f : Routine) (g : FlowGraph) (into : BlockId → Var → Option Reg)
    (f' : Routine) :
    Prop where
  name : f'.name = f.name
  vars : f'.vars = f.vars
  regs : f'.regs = f.regs
  route : f'.route = f.route
  size : f'.blocks.size = f.blocks.size
  arrives : ∀ b v r, into b v = some r ↔ Arrives f g b v r
  block : ∀ b < f.blocks.size, Block.Filled (f.block b) (f'.block b) (into b)

variable {f f' : Routine} {g : FlowGraph} {into : BlockId → Var → Option Reg}

/-- Where nothing is needed nothing arrives. -/
theorem Delivered.into_eq_none (h : Delivered f g into f') {b : BlockId} {v : Var}
    (hn : ¬ Needed f g b v) :
    into b v = none :=
  Option.eq_none_iff_forall_not_mem.mpr fun r hr => hn ((h.arrives b v r).mp hr).needed

/-- What a block needs is what its predecessor binds at last. -/
theorem Delivered.into_eq (hf : Deliverable f g) (h : Delivered f g into f') {p b : BlockId}
    {v : Var} (hp : p ∈ g.preds b) (hn : Needed f g b v) : into b v = (f'.block p).binding? v := by
  have hbind := (h.block p (hf.bounded p (FlowGraph.mem_preds.mp hp).1)).binding v
  obtain ⟨r, hr⟩ := exists_arrives hf hn
  rw [(h.arrives b v r).mpr hr, hbind]
  cases hr with
  | bound hq hb _ => rw [hf.single _ _ hn _ hp _ hq, hb]; rfl
  | pass hq hb _ hr =>
    rw [hf.single _ _ hn _ hp _ hq, hb, Option.none_or]
    exact ((h.arrives _ v r).mpr hr).symm

/-- After delivery no reached block waits. -/
theorem Delivered.params (hf : Deliverable f g) (h : Delivered f g into f') {b : BlockId}
    (hb : b ∈ g.order) : (f'.block b).params = [] := by
  rw [(h.block b (hf.bounded b hb)).params, List.filter_eq_nil_iff]
  intro v hv
  obtain ⟨r, hr⟩ := exists_arrives hf (.param hb hv)
  simp [(h.arrives b v r).mpr hr]

/-- With nothing left in the queue every block received what arrives. -/
theorem Transit.Inv.delivered {t : Transit} (hf : Deliverable f g) (h : Inv f g none t)
    (hq : t.queue = []) :
    Delivered f g t.got t.routine := by
  refine ⟨h.name, h.vars, h.regs, h.route, h.size, fun b v r => ⟨h.arrives b v r, fun hr => ?_⟩,
    h.blocks⟩
  obtain ⟨x, hx⟩ := Option.isSome_iff_exists.mp (h.got_of_needed hf hq hr.needed)
  rw [hx, (h.arrives b v x hx).unique hf hr]

/-- Delivery succeeds in a routine that is ready for it. -/
theorem deliverAll_spec (hf : Deliverable f g) {n : Needs} (hn : f.needs g = .ok n) :
    ∃ into f', f.deliverAll g = .ok f' ∧ Delivered f g into f' := by
  obtain ⟨t, hrun, hi, hq⟩ := (Transit.inv_start hn).run hf
  have hd := hi.delivered hf hq
  have hcheck : t.routine.checkFilled g = .ok () := by
    apply forM_eq_ok
    intro b hb
    rw [hd.params hf hb]
  refine ⟨t.got, t.routine, ?_, hd⟩
  simp only [deliverAll, hn, bind, Except.bind, hrun, hcheck, pure, Except.pure]

end ProcCompiler
