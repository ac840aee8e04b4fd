import ProcCompiler.Proofs.Graph.Reach
/-!
# Searches that follow up one node after another

A search takes a node off its queue and puts the nodes next to it that are new at the end. Found
layer by layer, the nodes come in the same order (`sweep_eq_explore`), so the queue hands out each
node once, and in the order in which exploration lists them.

* `Search.Run`: a search, node by node.
* `Search.Tracks.take`: what the taking of a node keeps.
* `Search.takes_explore`: exploration lists the nodes as the search takes them.
-/
namespace ProcCompiler

/-! ## Exploration, node by node -/

section Sweep

variable {α : Type} [Ord α] [Std.TransOrd α] {next : α → List α}

/-- Takes the first node of a queue and puts what is drawn for it at the end. -/
def sweep (next : α → List α) (queue : List α) (pool : Std.ExtTreeSet α) : List α :=
  match queue with
  | [] => []
  | x :: queue =>
    let drawn := draw (next x) pool
    x :: sweep next (queue ++ drawn.1) drawn.2
termination_by queue.length + pool.size
decreasing_by
  have := draw_size (next x) pool
  simp only [List.length_append, List.length_cons]
  omega

theorem draw_append (xs ys : List α) (pool : Std.ExtTreeSet α) :
    draw (xs ++ ys) pool =
      ((draw xs pool).1 ++ (draw ys (draw xs pool).2).1, (draw ys (draw xs pool).2).2) := by
  induction xs generalizing pool with
  | nil => simp [draw]
  | cons x xs ih =>
    simp only [List.cons_append, draw]
    split
    · rw [ih]
      rfl
    · rw [ih]

/-- What stands in front of the queue is taken first, whatever is drawn meanwhile. -/
theorem sweep_append (next : α → List α) (xs ys : List α) (pool : Std.ExtTreeSet α) :
    sweep next (xs ++ ys) pool = xs ++ sweep next (ys ++ (draw (xs.flatMap next) pool).1)
      (draw (xs.flatMap next) pool).2 := by
  induction xs generalizing ys pool with
  | nil => simp [draw]
  | cons x xs ih =>
    rw [List.cons_append, sweep, List.append_assoc, ih, List.flatMap_cons, draw_append,
      List.append_assoc]
    rfl

/-- Layer by layer or node by node, the order is the same. -/
theorem sweep_eq_explore (layer : List α) (pool : Std.ExtTreeSet α) :
    sweep next layer pool = explore next layer pool := by
  fun_induction explore next layer pool with
  | case1 => rw [sweep]
  | case2 pool x xs drawn ih =>
    have h := sweep_append next (x :: xs) [] pool
    rw [List.append_nil, List.nil_append] at h
    rw [h, ih]

end Sweep

/-! ## Searches -/

/-- A search: the nodes that were found, in the order of their discovery, and those that are still
to be followed up. -/
structure Search (α : Type) where
  queue : List α := []
  found : List α := []

namespace Search

variable {α : Type} [DecidableEq α]

/-- A node that is new is to be followed up. -/
def add (s : Search α) (x : α) : Search α :=
  if x ∈ s.found then s else { queue := s.queue ++ [x], found := s.found ++ [x] }

def addAll (s : Search α) (xs : List α) : Search α := xs.foldl add s

/-- The search from `start` took the listed nodes off its queue and stands at `s`. -/
inductive Run (next : α → List α) (start : Search α) : List α → Search α → Prop where
  | start : Run next start [] start
  | take {visited queue : List α} {s : Search α} {x : α} (h : Run next start visited s)
      (hq : s.queue = x :: queue) :
      Run next start (visited ++ [x]) ({ s with queue }.addAll (next x))

/-- The search from the seeds takes the nodes of a list, one after another and none twice, and ends
after the last. -/
structure Takes (next : α → List α) (seeds all : List α) : Prop where
  nodup : all.Nodup
  within : ∀ visited s, Run next (addAll {} seeds) visited s → visited ++ s.queue = s.found ∧
    s.found <+: all
  ends : ∃ s, Run next (addAll {} seeds) all s ∧ s.queue = []

variable [Ord α] [Std.TransOrd α] [Std.LawfulEqOrd α] {next : α → List α}

/-- The pool holds what is not found yet, so that adding is drawing. -/
theorem addAll_eq_draw {xs : List α} {s : Search α} {pool : Std.ExtTreeSet α}
    (h : ∀ x ∈ xs, x ∈ pool ↔ x ∉ s.found) :
    s.addAll xs =
      { queue := s.queue ++ (draw xs pool).1, found := s.found ++ (draw xs pool).1 } := by
  induction xs generalizing s pool with
  | nil => simp [addAll, draw]
  | cons x xs ih =>
    have hx := h x List.mem_cons_self
    show (s.add x).addAll xs = _
    by_cases hf : x ∈ s.found
    · rw [add, if_pos hf, draw, if_neg fun hp => hx.mp hp hf]
      exact ih fun y hy => h y (List.mem_cons_of_mem _ hy)
    · have hstep : ∀ y ∈ xs, y ∈ pool.erase x ↔ y ∉ s.found ++ [x] := by
        intro y hy
        rw [mem_erase_iff, h y (List.mem_cons_of_mem _ hy), List.mem_append, List.mem_singleton,
          not_or, and_comm]
      rw [add, if_neg hf, ih hstep, draw, if_pos (hx.mpr hf)]
      simp

/-- The search took `visited` and stands at `s`, and a sweep from here takes the rest of `all`. -/
structure Tracks (next : α → List α) (nodes : Std.ExtTreeSet α) (all visited : List α)
    (s : Search α) (pool : Std.ExtTreeSet α) : Prop where
  found : visited ++ s.queue = s.found
  inside : ∀ x ∈ s.found, x ∈ nodes
  missing : ∀ x, x ∈ pool ↔ x ∈ nodes ∧ x ∉ s.found
  rest : visited ++ sweep next s.queue pool = all

namespace Tracks

variable {nodes pool : Std.ExtTreeSet α} {all visited : List α} {s : Search α}

omit [DecidableEq α] [Std.LawfulEqOrd α] in
/-- What is in the queue is taken next. -/
theorem found_isPrefix (h : Tracks next nodes all visited s pool) : s.found <+: all := by
  have hsweep := sweep_append next s.queue [] pool
  rw [List.append_nil] at hsweep
  rw [← h.found, ← h.rest, hsweep, ← List.append_assoc]
  exact List.prefix_append _ _

theorem take (h : Tracks next nodes all visited s pool)
    (hnext : ∀ x y, x ∈ nodes → y ∈ next x → y ∈ nodes) {x : α} {queue : List α}
    (hq : s.queue = x :: queue) :
    Tracks next nodes all (visited ++ [x]) ({ s with queue }.addAll (next x))
      (draw (next x) pool).2 := by
  have hx : x ∈ nodes := h.inside x (by rw [← h.found, hq]; simp)
  have hadd : ({ s with queue } : Search α).addAll (next x) =
      { queue := queue ++ (draw (next x) pool).1, found := s.found ++ (draw (next x) pool).1 } :=
    addAll_eq_draw fun y hy => by rw [h.missing]; exact and_iff_right (hnext x y hx hy)
  have hdrawn : ∀ y, y ∈ (draw (next x) pool).1 ↔ y ∈ next x ∧ y ∈ nodes ∧ y ∉ s.found :=
    fun y => by
    rw [mem_draw, h.missing]
  rw [hadd]
  refine ⟨?_, fun y hy => ?_, fun y => ?_, ?_⟩
  · rw [← h.found, hq]
    simp
  · rcases List.mem_append.mp hy with hy | hy
    · exact h.inside y hy
    · exact ((hdrawn y).mp hy).2.1
  · rw [mem_draw_left, h.missing, List.mem_append, hdrawn]
    grind
  · have hrest := h.rest
    rw [hq, sweep] at hrest
    rw [← hrest]
    simp

/-- Whatever the search took, a sweep takes the rest. -/
theorem of_run {start : Search α} (hstart : Tracks next nodes all [] start pool)
    (hnext : ∀ x y, x ∈ nodes → y ∈ next x → y ∈ nodes) (h : Run next start visited s) :
    ∃ pool, Tracks next nodes all visited s pool := by
  induction h with
  | start => exact ⟨pool, hstart⟩
  | take _ hq ih =>
    obtain ⟨pool, ih⟩ := ih
    exact ⟨_, ih.take hnext hq⟩

/-- Each node that is taken leaves one less to take. -/
theorem exists_end {start : Search α} (hnext : ∀ x y, x ∈ nodes → y ∈ next x → y ∈ nodes)
    (h : Tracks next nodes all visited s pool) (hrun : Run next start visited s) :
    ∃ s', Run next start all s' ∧ s'.queue = [] := by
  induction hk : (sweep next s.queue pool).length generalizing visited s pool with
  | zero =>
    have hrest := h.rest
    have hnil := List.length_eq_zero_iff.mp hk
    rw [hnil, List.append_nil] at hrest
    subst hrest
    refine ⟨s, hrun, ?_⟩
    cases hq : s.queue with
    | nil => rfl
    | cons x queue =>
      rw [hq, sweep] at hnil
      cases hnil
  | succ k ih =>
    cases hq : s.queue with
    | nil => rw [hq, sweep] at hk; cases hk
    | cons x queue =>
      have hstep := h.take hnext hq
      refine ih hstep (.take hrun hq) ?_
      have hlen := congrArg List.length (h.rest.trans hstep.rest.symm)
      simp only [List.length_append, List.length_singleton] at hlen
      omega

end Tracks

/-- The search from the seeds, before it takes anything. -/
theorem tracks_start {seeds : List α} {nodes : Std.ExtTreeSet α} (hseeds : ∀ x ∈ seeds, x ∈ nodes) :
    Tracks next nodes (explore next (draw seeds nodes).1 (draw seeds nodes).2) [] (addAll {} seeds)
      (draw seeds nodes).2 := by
  have hadd : addAll {} seeds = { queue := (draw seeds nodes).1, found := (draw seeds nodes).1 } :=
    addAll_eq_draw fun x hx => by simpa using hseeds x hx
  rw [hadd]
  refine ⟨rfl, fun x hx => (mem_draw.mp hx).2,
    fun x => ?_, by rw [List.nil_append, sweep_eq_explore]⟩
  rw [mem_draw_left, mem_draw]
  grind

/-- Exploration lists the nodes in the order in which the search takes them. -/
theorem takes_explore {seeds : List α} {nodes : Std.ExtTreeSet α} (hseeds : ∀ x ∈ seeds, x ∈ nodes)
    (hnext : ∀ x y, x ∈ nodes → y ∈ next x → y ∈ nodes) :
    Takes next seeds (explore next (draw seeds nodes).1 (draw seeds nodes).2) := by
  have hstart : Tracks next nodes _ _ _ _ := tracks_start hseeds
  refine ⟨?_, fun visited s hrun => ?_, hstart.exists_end hnext .start⟩
  · exact nodup_explore (nodup_draw _ _) fun x hx hx' => (mem_draw_left.mp hx').1 (mem_draw.mp hx).1
  · obtain ⟨pool, h⟩ := hstart.of_run hnext hrun
    exact ⟨h.found, h.found_isPrefix⟩

end Search

end ProcCompiler
