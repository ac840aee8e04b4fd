import Mathlib.Data.Prod.Lex
import ProcCompiler.Proofs.Graph.Analyze
import ProcCompiler.Proofs.Lowering.Arguments
import ProcCompiler.Proofs.Lowering.Transit
/-!
# Delivery does not depend on its queue

The queue of deliveries is a list that is kept in order. All that delivery needs of it is that it
hands out a pending delivery that no pending one goes before; of deliveries that go before neither
each other it may hand out any. On the graph of a routine such deliveries are equal: they have one
rank, so they come from one block, and they bring what the block binds to one variable. So delivery
ends in the same way with every such queue, also where it is refused.

* `Transit.Ends`: how delivery may end.
* `Transit.Brings.eq_of_tied`: deliveries that go before neither each other.
* `Transit.Ends.run`: delivery ends as it does with the list.
* `Transit.ends_run`: the list is such a queue.
* `Routine.deliverAll_eq_of_ends`: the pass, with any queue.
-/
namespace ProcCompiler

/-! ## Which deliveries go first -/

namespace Delivery

/-- What decides which delivery goes first. -/
def key (d : Delivery) : Nat ×ₗ Int := toLex (d.rank, d.site.var)

theorem before_iff {d e : Delivery} : d.before e = true ↔ d.key < e.key := by
  rw [key, key, Prod.Lex.toLex_lt_toLex, before, Bool.or_eq_true, Bool.and_eq_true,
    decide_eq_true_eq, decide_eq_true_eq, beq_iff_eq]

theorem before_eq_false_iff {d e : Delivery} : d.before e = false ↔ e.key ≤ d.key := by
  rw [← Bool.not_eq_true, before_iff, not_lt]

end Delivery

/-- No delivery stands after one that it goes before. -/
def InOrder (queue : List Delivery) : Prop := queue.Pairwise fun d e => e.before d = false

theorem InOrder.enqueue {queue : List Delivery} (h : InOrder queue) (d : Delivery) :
    InOrder (enqueue d queue) := by
  induction queue with
  | nil => exact List.pairwise_singleton _ _
  | cons e queue ih =>
    obtain ⟨he, hqueue⟩ := List.pairwise_cons.mp h
    simp only [ProcCompiler.enqueue]
    split
    · rename_i hde
      refine List.pairwise_cons.mpr ⟨fun x hx => ?_, h⟩
      have hle := (Delivery.before_iff.mp hde).le
      rw [Delivery.before_eq_false_iff]
      rcases List.mem_cons.mp hx with rfl | hx
      · exact hle
      · exact hle.trans (Delivery.before_eq_false_iff.mp (he x hx))
    · rename_i hde
      refine List.pairwise_cons.mpr ⟨fun x hx => ?_, ih hqueue⟩
      rcases mem_enqueue.mp hx with rfl | hx
      · exact Bool.eq_false_iff.mpr hde
      · exact he x hx

theorem inOrder_foldr_enqueue (ds : List Delivery) : InOrder (ds.foldr enqueue []) := by
  induction ds with
  | nil => exact List.Pairwise.nil
  | cons d ds ih => exact ih.enqueue d

namespace Transit

variable {g : FlowGraph}

/-- How delivery may end with a queue that hands out any delivery that no pending one goes before:
with nothing left to deliver, or with a delivery that is refused. The queue counts up to its
order. -/
inductive Ends (g : FlowGraph) : Transit → Except Violation Transit → Prop where
  | done {t : Transit} (hq : t.queue = []) : Ends g t (.ok t)
  | refused {t : Transit} {d : Delivery} {queue : List Delivery} {e : Violation}
      (hq : t.queue.Perm (d :: queue)) (hd : ∀ x ∈ queue, x.before d = false)
      (h : (g.succs d.site.block).foldlM (deliver g d) { t with queue } = .error e) :
      Ends g t (.error e)
  | made {t t' : Transit} {d : Delivery} {queue : List Delivery} {r : Except Violation Transit}
      (hq : t.queue.Perm (d :: queue)) (hd : ∀ x ∈ queue, x.before d = false)
      (h : (g.succs d.site.block).foldlM (deliver g d) { t with queue } = .ok t')
        (hr : Ends g t' r) :
      Ends g t r

/-! ## States with the same deliveries to make -/

/-- The states differ in the order of their queues, if at all. -/
structure SameLoad (t u : Transit) : Prop where
  routine : t.routine = u.routine
  waiting : t.waiting = u.waiting
  arrived : t.arrived = u.arrived
  queue : t.queue.Perm u.queue

/-- An offer comes to the same in both. -/
theorem SameLoad.deliver {t u : Transit} (h : SameLoad t u) (d : Delivery) (dest : BlockId) :
    (∃ e, t.deliver g d dest = .error e ∧ u.deliver g d dest = .error e) ∨
      ∃ t' u', t.deliver g d dest = .ok t' ∧ u.deliver g d dest = .ok u' ∧ SameLoad t' u' := by
  obtain ⟨f, queue, waiting, arrived⟩ := t
  obtain ⟨f', queue', waiting', arrived'⟩ := u
  obtain ⟨rfl, rfl, rfl, hq⟩ := h
  by_cases hw : { block := dest, var := d.site.var } ∈ waiting
  · simp only [Transit.deliver, if_pos hw, push, arrive]
    cases handOn (f.modifyBlock dest (·.receive d.site.var d.reg)) g ⟨dest, d.site.var⟩ with
    | error e => exact .inl ⟨e, rfl, rfl⟩
    | ok x =>
      refine .inr ⟨_, _, rfl, rfl, rfl, rfl, rfl, ?_⟩
      exact (enqueue_perm x queue).trans ((hq.cons x).trans (enqueue_perm x queue').symm)
  · simp only [Transit.deliver, if_neg hw]
    cases arrived[({ block := dest, var := d.site.var } : Site)]? with
    | none => exact .inr ⟨_, _, rfl, rfl, rfl, rfl, rfl, hq⟩
    | some r =>
      by_cases hr : r = d.reg
      · simp only [if_pos hr]
        exact .inr ⟨_, _, rfl, rfl, rfl, rfl, rfl, hq⟩
      · simp only [if_neg hr]
        exact .inl ⟨_, rfl, rfl⟩

/-- So does a delivery. -/
theorem SameLoad.make {d : Delivery} {dests : List BlockId} {t u : Transit} (h : SameLoad t u) :
    (∃ e, dests.foldlM (Transit.deliver g d) t = .error e ∧
      dests.foldlM (Transit.deliver g d) u = .error e) ∨
    ∃ t' u', dests.foldlM (Transit.deliver g d) t = .ok t' ∧
      dests.foldlM (Transit.deliver g d) u = .ok u' ∧ SameLoad t' u' := by
  induction dests generalizing t u with
  | nil => exact .inr ⟨t, u, rfl, rfl, h⟩
  | cons dest dests ih =>
    rw [List.foldlM_cons, List.foldlM_cons]
    rcases h.deliver (g := g) d dest with ⟨e, ht, hu⟩ | ⟨t', u', ht, hu, h'⟩
    · rw [ht, hu]
      exact .inl ⟨e, rfl, rfl⟩
    · rw [ht, hu]
      exact ih h'

/-! ## Ties -/

/-- Deliveries that go before neither each other are equal. -/
theorem Brings.eq_of_tied {t : Transit} {d e : Delivery} (hd : t.Brings g d) (he : t.Brings g e)
    (hde : d.before e = false) (hed : e.before d = false) : d = e := by
  have hkey : d.key = e.key :=
    le_antisymm (Delivery.before_eq_false_iff.mp hed) (Delivery.before_eq_false_iff.mp hde)
  obtain ⟨hrank, hvar⟩ := Prod.mk.inj (toLex_inj.mp hkey)
  -- the ranks are places in the order, so the blocks are the same
  have hplace : ∀ {x : Delivery}, t.Brings g x → g.order[x.rank]? = some x.site.block := by
    intro x hx
    obtain ⟨i, hi⟩ : ∃ i, g.index? x.site.block = some i :=
      Option.ne_none_iff_exists'.mp fun hnone => List.idxOf?_eq_none_iff.mp hnone hx.mem
    have hxr : x.rank = i := by
      rw [hx.eq, delivery, hi]
      rfl
    rw [hxr]
    exact FlowGraph.getElem?_of_index? hi
  have hblock : d.site.block = e.site.block :=
    Option.some.inj ((hplace hd).symm.trans (hrank ▸ hplace he))
  have hreg : d.reg = e.reg :=
    Option.some.inj (hd.binding.symm.trans (hblock ▸ hvar ▸ he.binding))
  rw [hd.eq, he.eq, hblock, hvar, hreg]

/-! ## All deliveries -/

/-- A queue in order hands out what every queue may. -/
theorem ends_run (t : Transit) (h : InOrder t.queue) : Ends g t (t.run g) := by
  fun_induction Transit.run g t with
  | case1 t hq => exact .done hq
  | case2 t d queue hq e he =>
    exact .refused (hq ▸ .refl _) (List.pairwise_cons.mp (hq ▸ h)).1 he
  | case3 t d queue hq t' ht' ih =>
    obtain ⟨hd, hqueue⟩ := List.pairwise_cons.mp (hq ▸ h)
    refine .made (hq ▸ .refl _) hd ht' (ih ?_)
    exact offer_preserves (P := fun u => InOrder u.queue)
      (fun u _ hu _ _ => hu.enqueue _) ht' hqueue

/-- The delivery that a queue hands out is the one in front of a queue in order. -/
theorem exists_front {t u : Transit} (h : SameLoad t u) (hu : InOrder u.queue) (hs : Sourced g u)
    {d : Delivery} {queue : List Delivery} (hq : t.queue.Perm (d :: queue))
    (hd : ∀ x ∈ queue, x.before d = false) :
    ∃ queue', u.queue = d :: queue' ∧ InOrder queue' ∧
      SameLoad { t with queue } { u with queue := queue' } := by
  have hperm := h.queue.symm.trans hq
  cases hfront : u.queue with
  | nil =>
    rw [hfront] at hperm
    exact absurd (List.nil_perm.mp hperm) (List.cons_ne_nil _ _)
  | cons d' queue' =>
    rw [hfront] at hperm hu
    obtain ⟨hd', hqueue'⟩ := List.pairwise_cons.mp hu
    have hbrings : ∀ x ∈ d' :: queue', u.Brings g x := fun x hx => hs.queue x (hfront ▸ hx)
    obtain rfl : d = d' := by
      rcases List.mem_cons.mp (hperm.mem_iff.mpr List.mem_cons_self) with rfl | hmem
      · rfl
      rcases List.mem_cons.mp (hperm.mem_iff.mp List.mem_cons_self) with rfl | hmem'
      · rfl
      exact (hbrings d (List.mem_cons_of_mem _ hmem)).eq_of_tied (hbrings d' List.mem_cons_self)
        (hd' d hmem) (hd d' hmem')
    exact ⟨queue', rfl, hqueue', h.routine, h.waiting, h.arrived, (List.perm_cons d).mp hperm.symm⟩

/-- Delivery ends as it does with a queue in order. -/
theorem Ends.run (hclosed : ∀ b ∈ g.order, ∀ c ∈ g.succs b, c ∈ g.order) {t : Transit}
    {r : Except Violation Transit} (h : Ends g t r) {u : Transit} (hsame : SameLoad t u)
    (hu : InOrder u.queue) (hs : Sourced g u) :
    r.map Transit.routine = (u.run g).map Transit.routine := by
  induction h generalizing u with
  | done hq =>
    rw [run_of_nil (List.nil_perm.mp (hq ▸ hsame.queue))]
    exact congrArg Except.ok hsame.routine
  | refused hq hd h =>
    obtain ⟨queue', hfront, -, hsame'⟩ := exists_front hsame hu hs hq hd
    rw [run_of_cons hfront]
    rcases hsame'.make (g := g) with ⟨e, ht, hu⟩ | ⟨t', u', ht, -, -⟩
    · rw [hu]
      cases h.symm.trans ht
      rfl
    · cases h.symm.trans ht
  | made hq hd h _ ih =>
    obtain ⟨queue', hfront, hqueue', hsame'⟩ := exists_front hsame hu hs hq hd
    rw [run_of_cons hfront]
    rcases hsame'.make (g := g) with ⟨e, ht, -⟩ | ⟨t', u', ht, hu', hload⟩
    · cases h.symm.trans ht
    · cases h.symm.trans ht
      rw [hu']
      refine ih hload ?_ (hs.make hclosed (hfront ▸ .refl _) hu')
      exact offer_preserves (P := fun x => InOrder x.queue) (fun x _ hx _ _ => hx.enqueue _) hu'
        hqueue'

end Transit

namespace Routine

variable {f : Routine} {g : FlowGraph}

/-- Delivery gives the same routine, or is refused for the same reason, with every queue. -/
theorem deliverAll_eq_of_ends (hclosed : ∀ b ∈ g.order, ∀ c ∈ g.succs b, c ∈ g.order)
    (hbounded : ∀ b ∈ g.order, b < f.blocks.size) {n : Needs} (hn : f.needs g = .ok n)
    {r : Except Violation Transit} (h : Transit.Ends g (.start f g n) r) :
    f.deliverAll g = r.map Transit.routine >>= fun F => do F.checkFilled g; return F := by
  have hsame : Transit.SameLoad (.start f g n) (.start f g n) := ⟨rfl, rfl, rfl, .refl _⟩
  rw [h.run hclosed hsame (inOrder_foldr_enqueue _) (.start hbounded n), deliverAll_eq hn]
  cases (Transit.start f g n).run g <;> rfl

/-- So does the pass that makes the deliveries of a routine whose arguments were bound. -/
theorem deliverAll_bound_eq_of_ends {f₂ f₃ : Routine} {n m : Needs} {slots : List Slot}
    (hg : f₂.analyze = .ok g) (hb : f₂.bindArguments n slots = .ok (f₃, none))
    (hm : f₃.needs g = .ok m) {r : Except Violation Transit}
    (h : Transit.Ends g (.start f₃ g m) r) :
    f₃.deliverAll g = r.map Transit.routine >>= fun F => do F.checkFilled g; return F := by
  have hf := closed_of_analyze hg
  obtain rfl := eq_graph_of_analyze hg
  have hsize := (bindArguments_argued (Nat.lt_of_lt_of_le Nat.zero_lt_two hf.body) hb).2.1.size
  refine deliverAll_eq_of_ends (fun b hb c hc => hf.succ_mem_order hb hc) (fun b hb => ?_) hm h
  rw [hsize]
  exact hf.lt_of_mem_order hb

end Routine

end ProcCompiler
