import ProcCompiler.Proofs.Lowering.Complete
import ProcCompiler.Proofs.Lowering.Resplit
import ProcCompiler.Proofs.Routine.Session
/-!
# What happens when joins are not split

The check before delivery asks every join to bind what it needed and to wait for nothing. Only the
split makes a join do so. A join that was left as it was fails the check in one of two ways: it
waits for a variable itself, or it passes a need on, and then it does not bind what it passes on.
Without a join that needs something the split has nothing to do, so all that holds after it holds
without it.

* `checkBlock_join_ne_ok`: the check stops at a join that was not split.
* `Staged.exists_layout`: after the arguments nothing stops a lowering.
* `checkNeeds_finds_joins`: the check finds exactly the joins that should have been split.
-/
namespace ProcCompiler

open Routine

namespace Routine

/-- A check that passes found all the variables bound. -/
theorem bound_of_checkBound {f : Routine} {b : BlockId} {vs : List Var}
    (h : f.checkBound b vs = .ok ()) :
    ∀ v ∈ vs, (f.block b).binding? v ≠ none := by
  unfold checkBound at h
  split at h
  · cases h
  · rename_i hfind
    intro v hv hnone
    exact List.find?_eq_none.mp hfind v hv (by rw [hnone]; rfl)

/-- The check stops at a join that is as it was when it needed something. -/
theorem checkBlock_join_ne_ok {f f' : Routine} {n : Needs} (hf : f.Closed)
    (hn : f.needs f.graph = .ok n) {b : BlockId} (hj : f.graph.IsJoin n b)
    (hb : f'.block b = f.block b) :
    f'.checkBlock f.graph n b ≠ .ok () := by
  intro hok
  simp only [checkBlock] at hok
  rw [if_neg hj.2, if_neg fun h0 => hf.entry_not_join (h0 ▸ hj),
    if_pos (Nat.lt_of_succ_le hj.1)] at hok
  split at hok
  · rename_i hparams
    obtain ⟨v, hv⟩ := List.exists_mem_of_ne_nil _ hj.2
    have hbound := bound_of_checkBound hok v hv
    rw [hb] at hparams hbound
    -- the join does not wait for what it needs, so it only passes the need on
    cases (mem_of_iff hn).mp hv with
    | param _ hp => rw [hparams] at hp; cases hp
    | back _ hfree _ => exact hbound hfree
  · cases hok

end Routine

/-- After the arguments delivery succeeds, nothing waits any more, and the blocks can be laid
out. -/
theorem Staged.exists_layout {f f₂ f₃ : Routine} {n : Needs} {slots : List Slot}
    (h : Staged f n slots f₂ f₃) :
    ∃ F r, f₃.deliverAll f₂.graph = .ok F ∧
      (∀ b ∈ f₂.graph.order, (F.block b).params = [] ∧ (F.block b).Known) ∧
        F.layout f₂.graph = .ok r := by
  obtain ⟨n', hn'⟩ := h.exists_needs
  obtain ⟨into, F, hdeliver, hd⟩ := deliverAll_spec h.deliverable hn'
  have hsettled := h.settled hd
  exact ⟨F, _, hdeliver, fun b hb => ⟨hsettled.waits b hb, hsettled.known hb⟩,
    hsettled.layable.layout_eq⟩

/-- Leave the split of the joins out of the lowering of a well-formed routine, and bind its
arguments. The check before delivery then fails if and only if some reached block with several
predecessors needs a variable. If it passes, delivery succeeds, no reached block waits for anything
or reads anything unknown, and the layout succeeds. -/
theorem checkNeeds_finds_joins {f : Routine} (hf : f.WellFormed) : ∃ g₀ g n,
    f.analyze = .ok g₀ ∧ (f.addExit g₀).1.analyze = .ok g ∧ (f.addExit g₀).1.needs g = .ok n ∧
    ∀ slots f₃, (f.addExit g₀).1.bindArguments n slots = .ok (f₃, none) →
      ((∃ e, f₃.checkNeeds g n = .error e) ↔ ∃ b, g.Reach b ∧ 2 ≤ (g.preds b).length ∧
        n.of b ≠ []) ∧
      (f₃.checkNeeds g n = .ok () → ∃ F r, f₃.deliverAll g = .ok F ∧
        (∀ b, g.Reach b → (F.block b).params = [] ∧ (F.block b).Known) ∧ F.layout g = .ok r) := by
  have hready := hf.growing.ready hf.closed
  have hclosed := hready.addExit.closed
  obtain ⟨n, hn⟩ := exists_needs (f := (f.addExit f.graph).1) (g := (f.addExit f.graph).1.graph)
    fun b _ v hv => hready.addExit.nonneg b v hv
  refine ⟨f.graph, (f.addExit f.graph).1.graph, n, hready.closed.analyze_eq, hclosed.analyze_eq,
    hn, ?_⟩
  intro slots f₃ hb
  by_cases hjoin : ∃ b, (f.addExit f.graph).1.graph.Reach b ∧ (f.addExit f.graph).1.graph.IsJoin n b
  · obtain ⟨b, hr, hj⟩ := hjoin
    have h0 : b ≠ entry := fun h0 => hclosed.entry_not_join (h0 ▸ hj)
    have hargued := (bindArguments_argued (hclosed.lt_of_mem_order hclosed.entry_mem_order) hb).2.1
    have hfails : f₃.checkNeeds (f.addExit f.graph).1.graph n ≠ .ok () := fun hok =>
      checkBlock_join_ne_ok hclosed hn hj (hargued.other b h0)
        (ok_of_forM hok b (hclosed.mem_order.mpr hr))
    refine ⟨⟨fun _ => ⟨b, hr, hj⟩, fun _ => ?_⟩, fun hok => absurd hok hfails⟩
    cases hc : f₃.checkNeeds (f.addExit f.graph).1.graph n with
    | error e => exact ⟨e, rfl⟩
    | ok u => exact absurd hc hfails
  · -- the split would have left the routine as it is
    have hself := splitJoins_eq_self (f := (f.addExit f.graph).1) fun b ho hj =>
      hjoin ⟨b, hclosed.mem_order.mp ho, hj⟩
    have hsplit := (splitOf_of_splitJoins hclosed.analyze_eq hn hself).1
    have hstaged := hready.staged hsplit hb
    refine ⟨⟨fun ⟨e, he⟩ => ?_, fun hex => absurd hex hjoin⟩, fun _ => ?_⟩
    · cases he.symm.trans hstaged.checkNeeds_ok
    · obtain ⟨F, r, hdeliver, hwaits, hlayout⟩ := hstaged.exists_layout
      exact ⟨F, r, hdeliver, fun b hr => hwaits b (hclosed.mem_order.mpr hr), hlayout⟩

/-- Block 1 leaves by `e`, blocks 2 and 3 go on to block 4, and block 4 hands `x` on to block 5,
which copies it. -/
def ferryRoutine (e : Exit Operand Label) : Routine := (Session.run { routine := .new "ferry" }
  [.newVar "c", .newVar "x", .createBlock, .createBlock, .createBlock, .createBlock, .createBlock,
    .read 1 0, .add 1 (.exit e), .add 2 (.exit (.jump 4)), .add 3 (.exit (.jump 4)), .add 4
    (.exit (.jump 5)), .read 5 1, .write 5 1, .add 5 (.action (.move 0 (.param 0))), .add 5
    (.exit .ret)]).routine

/-- Block 4 has two predecessors. -/
def forkRoutine : Routine := ferryRoutine (.branch (.param 0) 2 3)

/-- Block 4 has one predecessor that is reached. -/
def lineRoutine : Routine := ferryRoutine (.jump 2)

theorem wellFormed_forkRoutine : forkRoutine.WellFormed where
  built := ⟨"ferry", _, by decide +kernel, rfl⟩
  body := by decide +kernel
  complete := by decide +kernel
  target := by decide +kernel

theorem wellFormed_lineRoutine : lineRoutine.WellFormed where
  built := ⟨"ferry", _, by decide +kernel, rfl⟩
  body := by decide +kernel
  complete := by decide +kernel
  target := by decide +kernel

/-- Reads off a computation that arguments are bound without a split, and what they give. -/
theorem exists_bound_unsplit (f : Routine) (slots : List Slot) (p : Needs → Routine → Bool)
    (h : ((f.needs f.graph).toOption.any fun n => (f.bindArguments n slots).toOption.any fun r =>
      r.2.isNone && p n r.1) = true) :
    ∃ n f₃, f.needs f.graph = .ok n ∧ f.bindArguments n slots = .ok (f₃, none) ∧ p n f₃ = true := by
  obtain ⟨n, hn, h⟩ := exists_of_any h
  obtain ⟨⟨f₃, missing⟩, hb, h⟩ := exists_of_any h
  rw [Bool.and_eq_true, Option.isNone_iff_eq_none] at h
  obtain ⟨rfl, hp⟩ := h
  exact ⟨n, f₃, hn, hb, hp⟩

/-- The join of the fork waits for nothing itself, and the check stops there. The line has no join,
and its code comes out. -/
theorem checkNeeds_finds_joins_ferry :
    (forkRoutine.WellFormed ∧ ∃ g₀ g n f₃, forkRoutine.analyze = .ok g₀ ∧
      (forkRoutine.addExit g₀).1.analyze = .ok g ∧
      (forkRoutine.addExit g₀).1.needs g = .ok n ∧
      (forkRoutine.addExit g₀).1.bindArguments n loopSlots = .ok (f₃, none) ∧
      (forkRoutine.block 4).params = [] ∧
      (g.Reach 4 ∧ 2 ≤ (g.preds 4).length ∧ n.of 4 ≠ []) ∧ ∃ e, f₃.checkNeeds g n = .error e) ∧
    (lineRoutine.WellFormed ∧ ∃ g₀ g n f₃ F r, lineRoutine.analyze = .ok g₀ ∧
      (lineRoutine.addExit g₀).1.analyze = .ok g ∧ (lineRoutine.addExit g₀).1.needs g = .ok n ∧
      (lineRoutine.addExit g₀).1.bindArguments n loopSlots = .ok (f₃, none) ∧
      f₃.checkNeeds g n = .ok () ∧
      f₃.deliverAll g = .ok F ∧ F.layout g = .ok r) := by
  constructor
  · obtain ⟨g₀, g, n, h₀, hg, hn, hall⟩ := checkNeeds_finds_joins wellFormed_forkRoutine
    obtain rfl := eq_graph_of_analyze h₀
    obtain rfl := eq_graph_of_analyze hg
    obtain ⟨n', f₃, hn', hb, hneeds⟩ :=
      exists_bound_unsplit (forkRoutine.addExit forkRoutine.graph).1 loopSlots
      (fun n _ => n.of 4 ≠ []) (by decide +kernel)
    cases hn.symm.trans hn'
    have hreach := (closed_of_analyze hg).mem_order (b := 4).mp (by decide +kernel)
    have hjoin : (forkRoutine.addExit forkRoutine.graph).1.graph.IsJoin n 4 :=
      ⟨by decide +kernel, of_decide_eq_true hneeds⟩
    exact ⟨wellFormed_forkRoutine, _, _, n, f₃, h₀, hg, hn, hb, by decide +kernel, ⟨hreach, hjoin⟩,
      (hall loopSlots f₃ hb).1.mpr ⟨4, hreach, hjoin⟩⟩
  · obtain ⟨g₀, g, n, h₀, hg, hn, hall⟩ := checkNeeds_finds_joins wellFormed_lineRoutine
    obtain rfl := eq_graph_of_analyze h₀
    obtain rfl := eq_graph_of_analyze hg
    obtain ⟨n', f₃, hn', hb, hcheck⟩ :=
      exists_bound_unsplit (lineRoutine.addExit lineRoutine.graph).1 loopSlots
      (fun n f₃ => f₃.checkNeeds (lineRoutine.addExit lineRoutine.graph).1.graph n = .ok ())
        (by decide +kernel)
    cases hn.symm.trans hn'
    have hok := of_decide_eq_true hcheck
    obtain ⟨F, r, hdeliver, -, hlayout⟩ := (hall loopSlots f₃ hb).2 hok
    exact ⟨wellFormed_lineRoutine, _, _, n, f₃, F, r, h₀, hg, hn, hb, hok, hdeliver, hlayout⟩

end ProcCompiler
