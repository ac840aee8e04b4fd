import ProcCompiler.Lowering.Delivery
import ProcCompiler.Proofs.Block.Receive
import ProcCompiler.Proofs.Graph.Reach
import ProcCompiler.Proofs.Outcome
import ProcCompiler.Syntax.Input
/-!
# What delivery can do to its state

An offer is turned down, which changes nothing, or it meets a site that waits and is accepted. A
block in which something arrived has a register to hand on, its own or the one that arrived. So a
property of the state that survives the taking of a delivery off the queue, and the acceptance of an
offer, survives delivery as a whole. Bindings are never changed, only added; so what is on its way
is what its block binds, and what arrived is what a predecessor binds.

* `Transit.push_arrive`: what arrives at a block is handed on.
* `Transit.deliver_cases`: one offer.
* `Transit.run_preserves`: all deliveries.
* `Transit.run_error`: why delivery is refused.
* `Transit.Sourced.run`: where everything on its way, and everything that arrived, comes from.
* `Routine.deliverAll_cases`: delivery as a run that leaves nothing waiting.
-/
namespace ProcCompiler

/-! ## The queue -/

theorem enqueue_perm (d : Delivery) (queue : List Delivery) :
    (enqueue d queue).Perm (d :: queue) := by
  induction queue with
  | nil => exact .refl _
  | cons e queue ih =>
    simp only [enqueue]
    split
    · exact .refl _
    · exact (ih.cons e).trans (.swap d e queue)

theorem mem_enqueue {d e : Delivery} {queue : List Delivery} :
    e ∈ enqueue d queue ↔ e = d ∨ e ∈ queue :=
  (enqueue_perm d queue).mem_iff.trans List.mem_cons

theorem foldr_enqueue_perm (ds : List Delivery) : (ds.foldr enqueue []).Perm ds := by
  induction ds with
  | nil => exact .refl _
  | cons d ds ih => exact (enqueue_perm d _).trans (ih.cons d)

theorem mem_foldr_enqueue {e : Delivery} {ds : List Delivery} : e ∈ ds.foldr enqueue [] ↔ e ∈ ds :=
  (foldr_enqueue_perm ds).mem_iff

namespace Transit

variable {g : FlowGraph}

/-- What arrived at a block for a variable. -/
def got (t : Transit) (b : BlockId) (v : Var) : Option Reg :=
  t.arrived[({ block := b, var := v } : Site)]?

/-! ## An accepted offer -/

/-- The register that a block hands on when `r` arrives at a site: its own, or else `r`. -/
def handed (t : Transit) (s : Site) (r : Reg) : Reg :=
  ((t.routine.block s.block).binding? s.var).getD r

theorem handed_of {P : Reg → Prop} {t : Transit} {s : Site} {r : Reg} (hr : P r)
    (hown : ∀ x, (t.routine.block s.block).binding? s.var = some x → P x) : P (t.handed s r) := by
  unfold handed
  cases hx : (t.routine.block s.block).binding? s.var with
  | none => exact hr
  | some x => exact hown x hx

/-- The state after a site took what was offered and its block handed on a register. -/
def accept (g : FlowGraph) (t : Transit) (s : Site) (r : Reg) : Transit :=
  { t.arrive s r with queue := enqueue (delivery g s.block s.var (t.handed s r)) t.queue }

theorem got_accept (t : Transit) (s : Site) (r : Reg) (b : BlockId) (v : Var) :
    (t.accept g s r).got b v = if s = ⟨b, v⟩ then some r else t.got b v := by
  simp only [accept, arrive, got, Std.ExtTreeMap.getElem?_insert, Std.LawfulEqOrd.compare_eq_iff_eq]

theorem got_accept_block (t : Transit) (c : BlockId) (v : Var) (r : Reg) :
    (t.accept g ⟨c, v⟩ r).got c = Function.update (t.got c) v (some r) := by
  funext w
  rw [got_accept]
  by_cases hw : w = v
  · subst hw; simp
  · rw [Function.update_of_ne hw, if_neg]
    intro he
    exact hw (Site.mk.inj he).2.symm

theorem got_accept_ne (t : Transit) {c b : BlockId} (hb : b ≠ c) (v : Var) (r : Reg) :
    (t.accept g ⟨c, v⟩ r).got b = t.got b := by
  funext w
  rw [got_accept, if_neg]
  intro he
  exact hb (Site.mk.inj he).1.symm

theorem mem_waiting_accept {t : Transit} {s x : Site} {r : Reg} :
    x ∈ (t.accept g s r).waiting ↔ x ≠ s ∧ x ∈ t.waiting := mem_erase_iff

theorem block_accept_ne (t : Transit) {c b : BlockId} (hb : b ≠ c) (v : Var) (r : Reg) :
    (t.accept g ⟨c, v⟩ r).routine.block b = t.routine.block b :=
  Routine.block_modifyBlock_ne (Ne.symm hb) _

theorem block_accept_self {t : Transit} {c : BlockId} (hc : c < t.routine.blocks.size) (v : Var)
    (r : Reg) : (t.accept g ⟨c, v⟩ r).routine.block c = (t.routine.block c).receive v r :=
  Routine.block_modifyBlock_self hc _

/-- What arrives is bound afterwards, and is then what the block hands on. -/
theorem binding?_accept_self {t : Transit} {c : BlockId} (hc : c < t.routine.blocks.size) (v : Var)
    (r : Reg) :
    ((t.accept g ⟨c, v⟩ r).routine.block c).binding? v = some (t.handed ⟨c, v⟩ r) := by
  rw [block_accept_self hc, Block.binding?_receive, Function.update_self, handed]
  cases (t.routine.block c).binding? v <;> rfl

/-- A binding stays as it is when something arrives. -/
theorem binding?_accept {t : Transit} {c b : BlockId} {v w : Var} {r x : Reg}
    (h : (t.routine.block b).binding? w = some x) (hc : c < t.routine.blocks.size) :
    ((t.accept g ⟨c, v⟩ r).routine.block b).binding? w = some x := by
  by_cases hb : b = c
  · subst hb
    rw [block_accept_self hc, Block.binding?_receive, h]; rfl
  · rw [block_accept_ne t hb]; exact h

/-- No other binding is new. -/
theorem binding?_of_accept {t : Transit} {c b : BlockId} {v w : Var} {r x : Reg}
    (h : ((t.accept g ⟨c, v⟩ r).routine.block b).binding? w = some x)
    (hc : c < t.routine.blocks.size) (hne : ¬ (b = c ∧ w = v)) :
    (t.routine.block b).binding? w = some x := by
  by_cases hb : b = c
  · subst hb
    have hw : w ≠ v := fun e => hne ⟨rfl, e⟩
    rwa [block_accept_self hc, Block.binding?_receive, Function.update_of_ne hw,
      Option.or_none] at h
  · rwa [block_accept_ne t hb] at h

/-- The delivery that an accepted offer adds to the queue. -/
theorem mem_queue_accept {t : Transit} {c : BlockId} {v : Var} {r : Reg} {e : Delivery} :
    e ∈ (t.accept g ⟨c, v⟩ r).queue ↔ e = delivery g c v (t.handed ⟨c, v⟩ r) ∨ e ∈ t.queue :=
  mem_enqueue

/-! ## One offer -/

/-- A block in which something arrived has a register to hand on. -/
theorem push_arrive {t : Transit} {s : Site} (hs : s.block < t.routine.blocks.size) (r : Reg) :
    (t.arrive s r).push g s = .ok (t.accept g s r) := by
  have hbound : ((t.arrive s r).routine.block s.block).binding? s.var = some (t.handed s r) :=
    binding?_accept_self (g := g) hs s.var r
  simp only [push, handOn, hbound]
  rfl

/-- Where there is no block there is nothing to hand on. -/
theorem push_of_le {t : Transit} {s : Site} (hs : t.routine.blocks.size ≤ s.block) :
    t.push g s = .error (.noRegister t.routine.name s.block (t.routine.varName s.var)) := by
  simp only [push, handOn, Routine.block_of_le hs]
  rfl

/-- An offer changes nothing, or it is accepted at a site that waits. -/
theorem deliver_cases {d : Delivery} {t t' : Transit} {dest : BlockId}
    (h : t.deliver g d dest = .ok t') :
    t' = t ∨ { block := dest, var := d.site.var } ∈ t.waiting ∧
      t' = t.accept g ⟨dest, d.site.var⟩ d.reg := by
  simp only [deliver] at h
  split at h
  · rename_i hw
    refine .inr ⟨hw, ?_⟩
    by_cases hlt : dest < t.routine.blocks.size
    · rw [push_arrive (s := { block := dest, var := d.site.var }) hlt] at h
      exact (Except.ok.inj h).symm
    · rw [push_of_le (by simpa [arrive] using hlt)] at h
      cases h
  · left
    split at h
    · exact (Except.ok.inj h).symm
    · split at h
      · exact (Except.ok.inj h).symm
      · cases h

/-- An offer to a block that exists is refused only because of what arrived there before. -/
theorem deliver_error {d : Delivery} {t : Transit} {dest : BlockId} {e : Violation}
    (hdest : dest < t.routine.blocks.size) (h : t.deliver g d dest = .error e) :
    ∃ r, t.got dest d.site.var = some r ∧ r ≠ d.reg ∧
      e = .twoSources t.routine.name dest (t.routine.varName d.site.var) r d.reg := by
  simp only [deliver] at h
  split at h
  · rw [push_arrive (s := { block := dest, var := d.site.var }) hdest] at h
    cases h
  · split at h
    · cases h
    · rename_i r hr
      split at h
      · cases h
      · rename_i hne
        exact ⟨r, hr, hne, (Except.error.inj h).symm⟩

/-! ## All of them -/

theorem run_of_nil {g : FlowGraph} {t : Transit} (h : t.queue = []) : run g t = .ok t := by
  rw [run]
  split <;> simp_all

theorem run_of_cons {g : FlowGraph} {t : Transit} {d : Delivery} {queue : List Delivery}
    (h : t.queue = d :: queue) :
    run g t = (g.succs d.site.block).foldlM (deliver g d) { t with queue } >>= run g := by
  rw [run]
  split
  · simp_all
  · rename_i hq
    cases hq.symm.trans h
    split <;> rename_i hr <;> rw [hr] <;> rfl

/-- What an accepted offer keeps is kept when a delivery is offered all round. -/
theorem offer_preserves {P : Transit → Prop} {d : Delivery}
    (haccept : ∀ (t : Transit) (dest : BlockId), P t → dest ∈ g.succs d.site.block →
      { block := dest, var := d.site.var } ∈ t.waiting → P (t.accept g ⟨dest, d.site.var⟩ d.reg))
    {t t' : Transit} (h : (g.succs d.site.block).foldlM (deliver g d) t = .ok t') (ht : P t) :
    P t' := by
  refine foldlM_preserves (fun t dest hdest t' ht hstep => ?_) h ht
  rcases deliver_cases hstep with rfl | ⟨hw, rfl⟩
  · exact ht
  · exact haccept t dest ht hdest hw

/-- What the taking off of a delivery and an accepted offer keep is kept by delivery. The property
`Q` is what the invariant says of the deliveries in the queue. -/
theorem run_preserves {P : Transit → Prop} {Q : Delivery → Prop}
    (haccept : ∀ (t : Transit) (d : Delivery) (dest : BlockId), P t → Q d →
      dest ∈ g.succs d.site.block → { block := dest, var := d.site.var } ∈ t.waiting →
      P (t.accept g ⟨dest, d.site.var⟩ d.reg))
    (hqueue : ∀ t : Transit, P t → ∀ d ∈ t.queue, Q d)
    (htake : ∀ (t : Transit) (d : Delivery) (queue : List Delivery), P t → t.queue = d :: queue →
      P { t with queue })
    {t t' : Transit} (h : t.run g = .ok t') (ht : P t) : P t' := by
  fun_induction run g t with
  | case1 t => cases h; exact ht
  | case2 => cases h
  | case3 t d queue hq t₁ hf ih =>
    have hd : Q d := hqueue t ht d (hq ▸ List.mem_cons_self)
    exact ih h (offer_preserves (fun u dest hu => haccept u d dest hu hd) hf
      (htake t d queue ht hq))

/-! ## Where it comes from -/

theorem mem_bindingDeliveries {f : Routine} {b : BlockId} {d : Delivery} :
    d ∈ bindingDeliveries f g b ↔ ∃ v r, (f.block b).binding? v = some r ∧
      d = delivery g b v r := by
  simp only [bindingDeliveries, List.mem_map, Prod.exists, Block.binding?,
    Std.ExtTreeMap.mem_toList_iff_getElem?_eq_some]
  constructor
  · rintro ⟨v, r, hr, rfl⟩; exact ⟨v, r, hr, rfl⟩
  · rintro ⟨v, r, hr, rfl⟩; exact ⟨v, r, hr, rfl⟩

/-- The delivery brings what a reached block binds. -/
structure Brings (g : FlowGraph) (t : Transit) (d : Delivery) : Prop where
  mem : d.site.block ∈ g.order
  eq : d = delivery g d.site.block d.site.var d.reg
  binding : (t.routine.block d.site.block).binding? d.site.var = some d.reg

/-- What is on its way is what its block binds, and what arrived is what a predecessor binds. -/
structure Sourced (g : FlowGraph) (t : Transit) : Prop where
  bounded : ∀ b ∈ g.order, b < t.routine.blocks.size
  queue : ∀ d ∈ t.queue, t.Brings g d
  got : ∀ b v r, t.got b v = some r → ∃ p ∈ g.preds b, (t.routine.block p).binding? v = some r

/-- Later arrivals leave a binding, and so a delivery of it, as it is. -/
theorem Brings.accept {t : Transit} {d : Delivery} (h : t.Brings g d) {c : BlockId}
    (hc : c < t.routine.blocks.size) (v : Var) (r : Reg) : (t.accept g ⟨c, v⟩ r).Brings g d :=
  ⟨h.mem, h.eq, binding?_accept h.binding hc⟩

namespace Sourced

theorem start {f : Routine} (hbounded : ∀ b ∈ g.order, b < f.blocks.size) (n : Needs) :
    Sourced g (start f g n) where
  bounded := hbounded
  queue d hd := by
    simp only [Transit.start, mem_foldr_enqueue, List.mem_flatMap] at hd
    obtain ⟨b, hb, hd⟩ := hd
    obtain ⟨v, r, hr, rfl⟩ := mem_bindingDeliveries.mp hd
    exact ⟨hb, rfl, hr⟩
  got b v r hr := by simp [Transit.start, Transit.got] at hr

/-- An offer that is accepted comes from a predecessor, and what goes on is what the block binds. -/
theorem accept {t : Transit} (h : Sourced g t) {d : Delivery} (hd : t.Brings g d) {c : BlockId}
    (hc : c ∈ g.succs d.site.block) (hco : c ∈ g.order) :
    Sourced g (t.accept g ⟨c, d.site.var⟩ d.reg) := by
  have hlt := h.bounded c hco
  refine ⟨fun b hb => ?_, fun e he => ?_, fun b v r hr => ?_⟩
  · exact Nat.lt_of_lt_of_eq (h.bounded b hb) (Routine.size_modifyBlock ..).symm
  · rcases mem_queue_accept.mp he with rfl | he
    · exact ⟨hco, rfl, binding?_accept_self hlt d.site.var d.reg⟩
    · exact (h.queue e he).accept hlt _ _
  · rw [got_accept] at hr
    split at hr
    · rename_i hs
      cases hs
      cases hr
      exact ⟨d.site.block, FlowGraph.mem_preds.mpr ⟨hd.mem, hc⟩, binding?_accept hd.binding hlt⟩
    · obtain ⟨p, hp, hbind⟩ := h.got b v r hr
      exact ⟨p, hp, binding?_accept hbind hlt⟩

/-- What one delivery keeps, whichever of the queue it is. -/
theorem make (hclosed : ∀ b ∈ g.order, ∀ c ∈ g.succs b, c ∈ g.order) {t t' : Transit}
    (ht : Sourced g t) {d : Delivery} {queue : List Delivery} (hq : t.queue.Perm (d :: queue))
    (h : (g.succs d.site.block).foldlM (deliver g d) { t with queue } = .ok t') : Sourced g t' := by
  refine (offer_preserves (P := fun u => Sourced g u ∧ u.Brings g d) (fun u c hu hc _ => ?_) h ?_).1
  · have hco := hclosed _ hu.2.mem c hc
    exact ⟨hu.1.accept hu.2 hc hco, hu.2.accept (hu.1.bounded c hco) _ _⟩
  · have hbrings : ∀ e ∈ d :: queue, ({ t with queue } : Transit).Brings g e := fun e he =>
      have := ht.queue e (hq.mem_iff.mpr he)
      ⟨this.mem, this.eq, this.binding⟩
    exact ⟨⟨ht.bounded, fun e he => hbrings e (List.mem_cons_of_mem d he), ht.got⟩,
      hbrings d List.mem_cons_self⟩

/-- So it stays until all deliveries are made. -/
theorem run (hclosed : ∀ b ∈ g.order, ∀ c ∈ g.succs b, c ∈ g.order) {t t' : Transit}
    (h : t.run g = .ok t') (ht : Sourced g t) : Sourced g t' := by
  fun_induction Transit.run g t with
  | case1 t => cases h; exact ht
  | case2 => cases h
  | case3 t d queue hq t₁ hf ih => exact ih h (ht.make hclosed (hq ▸ .refl _) hf)

end Sourced

theorem make_error {d : Delivery} {dests : List BlockId} {t : Transit} {e : Violation}
    (hdests : ∀ c ∈ dests, c < t.routine.blocks.size)
    (h : dests.foldlM (deliver g d) t = .error e) :
    ∃ name b var r, r ≠ d.reg ∧ e = .twoSources name b var r d.reg := by
  induction dests generalizing t with
  | nil => cases h
  | cons c dests ih =>
    rw [List.foldlM_cons] at h
    cases hc : t.deliver g d c with
    | error e' =>
      rw [hc] at h
      cases h
      obtain ⟨r, -, hne, he⟩ := deliver_error (hdests c List.mem_cons_self) hc
      exact ⟨_, _, _, r, hne, he⟩
    | ok t' =>
      rw [hc] at h
      have hsize : t'.routine.blocks.size = t.routine.blocks.size := by
        rcases deliver_cases hc with rfl | ⟨-, rfl⟩
        · rfl
        · exact Routine.size_modifyBlock ..
      exact ih (fun x hx => hsize ▸ hdests x (List.mem_cons_of_mem c hx)) h

/-- Delivery on a graph of existing blocks is refused only because two registers arrive. -/
theorem run_error (hclosed : ∀ b ∈ g.order, ∀ c ∈ g.succs b, c ∈ g.order) {t : Transit}
    {e : Violation} (ht : Sourced g t) (h : t.run g = .error e) :
    ∃ name b var r r', r ≠ r' ∧ e = .twoSources name b var r r' := by
  fun_induction Transit.run g t with
  | case1 => cases h
  | case2 t d queue hq e' he =>
    cases h
    have hd := (ht.queue d (hq ▸ List.mem_cons_self)).mem
    obtain ⟨name, b, var, r, hne, he⟩ := make_error (t := { t with queue })
      (fun c hc => ht.bounded c (hclosed _ hd c hc)) he
    exact ⟨name, b, var, r, d.reg, hne, he⟩
  | case3 t d queue hq t' hf ih => exact ih (ht.make hclosed (hq ▸ .refl _) hf) h

end Transit

namespace Routine

theorem params_of_checkFilled {f : Routine} {g : FlowGraph} (h : f.checkFilled g = .ok ())
    {b : BlockId} (hb : b ∈ g.order) : (f.block b).params = [] := by
  have := ok_of_forM h b hb
  split at this
  · assumption
  · cases this

theorem deliverAll_eq {f : Routine} {g : FlowGraph} {n : Needs} (hn : f.needs g = .ok n) :
    f.deliverAll g =
      (Transit.start f g n).run g >>= fun t => do t.routine.checkFilled g; return t.routine := by
  rw [deliverAll, hn]
  rfl

/-- Delivery that succeeds is a run after which no reached block waits. -/
theorem deliverAll_cases {f F : Routine} {g : FlowGraph} (h : f.deliverAll g = .ok F) :
    ∃ n t, f.needs g = .ok n ∧ (Transit.start f g n).run g = .ok t ∧ t.routine = F ∧
      ∀ b ∈ g.order, (F.block b).params = [] := by
  obtain ⟨n, hn, h⟩ := ok_of_bind h
  obtain ⟨t, ht, h⟩ := ok_of_bind h
  obtain ⟨⟨⟩, hc, h⟩ := ok_of_bind h
  cases h
  exact ⟨n, t, hn, ht, rfl, fun b hb => params_of_checkFilled hc hb⟩

end Routine

end ProcCompiler
