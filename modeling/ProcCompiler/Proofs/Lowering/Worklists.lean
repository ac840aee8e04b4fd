import ProcCompiler.Proofs.Graph.BreadthFirst
import ProcCompiler.Proofs.Graph.Search
import ProcCompiler.Proofs.Lowering.AnyOrder
/-!
# How long the worklists are

Needs are found by a search back from the parameters, whose queue hands out each site once. Delivery
takes deliveries off a queue and puts new ones in, each for a site that stops waiting; the
deliveries made, those left and the sites that wait are always as many as at the start.

* `Routine.takes_needs`: the search for needs.
* `Transit.walk_measure`: deliveries made, deliveries left and sites that wait.
* `Transit.exists_end`: delivery, delivery by delivery, up to the end of the queue or a refusal.
* `worklists_end`: both worklists, on any graph.
-/
namespace ProcCompiler

open Routine

/-! ## Needs -/

/-- The needs are found in the order in which the search back from the parameters takes them. -/
theorem Routine.takes_needs {f : Routine} {g : FlowGraph} {n : Needs} (h : f.needs g = .ok n) :
    Search.Takes (f.needed g) (f.paramSites g) n.sites := by
  rw [needs_sites h]
  exact Search.takes_explore (fun _ => candidate_of_param) fun _ _ => candidate_of_needed

/-! ## Deliveries -/

namespace Walk

variable {α : Type} {R S : α → α → Prop} {a b c : α} {k : Nat}

theorem cons (hab : R a b) (h : Walk R b k c) : Walk R a (k + 1) c := by
  induction h with
  | start => exact .step .start hab
  | step _ hxy ih => exact .step ih hxy

theorem mono (hRS : ∀ x y, R x y → S x y) (h : Walk R a k b) : Walk S a k b := by
  induction h with
  | start => exact .start
  | step _ hxy ih => exact .step ih (hRS _ _ hxy)

end Walk

/-- The number of bindings of the blocks of a graph. -/
def Routine.bindingCount (f : Routine) (g : FlowGraph) : Nat :=
  (g.order.flatMap fun b => (f.block b).bindings.toList).length

namespace Transit

variable {g : FlowGraph} {t t' : Transit}

/-- The delivery in front of the queue is made. -/
inductive Pop (g : FlowGraph) (t : Transit) : Transit → Prop where
  | make {d : Delivery} {queue : List Delivery} {t' : Transit} (hq : t.queue = d :: queue)
      (h : (g.succs d.site.block).foldlM (deliver g d) { t with queue } = .ok t') : Pop g t t'

theorem Pop.step (h : Pop g t t') : Step g t t' := by
  cases h with
  | @make d queue _ hq h => exact .make (show t.queue = [] ++ d :: queue from hq) h

/-- Deliveries made, deliveries left and sites that wait are always as many as at the start, in
whatever order the deliveries are made. -/
theorem walk_measure {k : Nat} (h : Walk (Step g) t k t') : k + t'.measure = t.measure := by
  induction h with
  | start => exact Nat.zero_add _
  | step _ hstep ih =>
    have := hstep.measure_eq
    omega

theorem foldr_enqueue_length (ds : List Delivery) : (ds.foldr enqueue []).length = ds.length := by
  induction ds with
  | nil => rfl
  | cons d ds ih => rw [List.foldr_cons, enqueue_length, ih, List.length_cons]

theorem start_measure {f : Routine} {n : Needs} (hn : n.sites.Nodup) :
    (start f g n).measure = f.bindingCount g + n.sites.length := by
  have hqueue : (start f g n).queue.length = f.bindingCount g := by
    show ((g.order.flatMap (bindingDeliveries f g)).foldr enqueue []).length = _
    rw [foldr_enqueue_length, bindingCount]
    simp only [List.length_flatMap, bindingDeliveries, List.length_map]
  have hwaiting : (start f g n).waiting.size = n.sites.length := by
    refine Std.ExtTreeSet.size_ofList (hn.imp fun hne => ?_)
    rwa [Std.LawfulEqOrd.compare_eq_iff_eq]
  rw [measure, hqueue, hwaiting]

/-- Delivery, delivery by delivery: the queue gets empty, or the delivery in front of it is
refused. -/
theorem exists_end (g : FlowGraph) (t : Transit) : ∃ k t', Walk (Pop g) t k t' ∧
    (t'.queue = [] ∧ t.run g = .ok t' ∨ ∃ d queue e, t'.queue = d :: queue ∧
      (g.succs d.site.block).foldlM (deliver g d) { t' with queue } = .error e ∧
      t.run g = .error e) := by
  fun_induction run g t with
  | case1 t hq => exact ⟨0, t, .start, .inl ⟨hq, rfl⟩⟩
  | case2 t d queue hq e he => exact ⟨0, t, .start, .inr ⟨d, queue, e, hq, he, rfl⟩⟩
  | case3 t d queue hq t₁ h₁ ih =>
    obtain ⟨k, t', hwalk, hend⟩ := ih
    exact ⟨k + 1, t', hwalk.cons (.make hq h₁), hend⟩

end Transit

/-- Delivery with the needs `n`, delivery by delivery. In whatever order deliveries are made, those
made, those left and the sites that wait are as many as the bindings and needs at the start. Made in
the order of the queue, they end with an empty queue, after which delivery looks for blocks that
still wait, or with a delivery that is refused. -/
structure Transit.Bounded (f : Routine) (g : FlowGraph) (n : Needs) : Prop where
  count : ∀ k t, Walk (Step g) (.start f g n) k t →
    k + t.queue.length + t.waiting.size = f.bindingCount g + n.sites.length
  ends : ∃ k t, Walk (Pop g) (.start f g n) k t ∧
    (t.queue = [] ∧ k ≤ f.bindingCount g + n.sites.length ∧
        f.deliverAll g = (do t.routine.checkFilled g; return t.routine) ∨
      ∃ d queue e, t.queue = d :: queue ∧ k + 1 ≤ f.bindingCount g + n.sites.length ∧
        (g.succs d.site.block).foldlM (deliver g d) { t with queue } = .error e ∧
        f.deliverAll g = .error e)

theorem Transit.bounded {f : Routine} {g : FlowGraph} {n : Needs} (hn : f.needs g = .ok n) :
    Bounded f g n := by
  have hcount : ∀ k t, Walk (Step g) (.start f g n) k t →
      k + t.queue.length + t.waiting.size = f.bindingCount g + n.sites.length := by
    intro k t h
    rw [← start_measure (nodup_sites hn), ← walk_measure h, measure, Nat.add_assoc]
  refine ⟨hcount, ?_⟩
  obtain ⟨k, t, hwalk, hend⟩ := exists_end g (.start f g n)
  have hk := hcount k t (hwalk.mono fun _ _ => Pop.step)
  refine ⟨k, t, hwalk, ?_⟩
  rcases hend with ⟨hq, hrun⟩ | ⟨d, queue, e, hq, he, hrun⟩
  · refine .inl ⟨hq, by omega, ?_⟩
    rw [deliverAll_eq hn, hrun]
    rfl
  · rw [hq, List.length_cons] at hk
    refine .inr ⟨d, queue, e, hq, by omega, he, ?_⟩
    rw [deliverAll_eq hn, hrun]
    rfl

/-- On any graph, that of the routine as it is or another, both worklists end. The search for needs
takes each site once, and delivery makes no more deliveries than there are bindings and needs at its
start. -/
theorem worklists_end {f : Routine} {g : FlowGraph}
    (hv : ∀ b ∈ g.order, ∀ v ∈ (f.block b).params, 0 ≤ v) :
    ∃ n, f.needs g = .ok n ∧ Search.Takes (f.needed g) (f.paramSites g) n.sites ∧
      Transit.Bounded f g n := by
  obtain ⟨n, hn⟩ := exists_needs hv
  exact ⟨n, hn, takes_needs hn, Transit.bounded hn⟩

/-- Two blocks that bind `x` differently lead to a third, which waits for it and leads back. -/
def rivalRoutine : Routine where
  name := "rival"
  blocks := #[{}, { params := [1], exit := some (.branch (.param 0) 2 3) },
    { body := [.move 0 (.reg 2)], exit := some (.jump 4),
      bindings := .ofList [((0 : Var), (0 : Reg))] },
    { body := [.move 1 (.reg 2)], exit := some (.jump 4),
      bindings := .ofList [((0 : Var), (1 : Reg))] },
    { params := [0, 1], exit := some (.branch (.param 0) 1 1) }]
  regs := #[{ var := 0 }, { var := 0 }, { var := 1 }]
  vars := #["x", "y"]
  route := 1

def rivalGraph : FlowGraph where
  table := #[[1], [2, 3], [4], [4], [1]]
  order := [0, 1, 2, 3, 4]

example : rivalRoutine.deliverAll rivalGraph = .error (.twoSources "rival" 4 "x" 0 1) := by
  decide +kernel

theorem worklists_end_rival : rivalRoutine.analyze = .ok rivalGraph ∧
    (∀ b ∈ rivalGraph.order, ∀ v ∈ (rivalRoutine.block b).params, 0 ≤ v) ∧
    rivalRoutine.bindingCount rivalGraph = 2 ∧
    ∃ n, rivalRoutine.needs rivalGraph = .ok n ∧
      Search.Takes (rivalRoutine.needed rivalGraph) (rivalRoutine.paramSites rivalGraph) n.sites ∧
      Transit.Bounded rivalRoutine rivalGraph n :=
  ⟨by decide +kernel, by decide +kernel, by decide +kernel, worklists_end (by decide +kernel)⟩

end ProcCompiler
