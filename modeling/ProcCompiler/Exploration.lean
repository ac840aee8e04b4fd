import Std.Data.ExtTreeSet
/-!
# Exploration by layers

Visits a graph in breadth-first order: a layer, then all that the layer reaches and nobody saw
before, in the order in which it is met. What may be visited is given as a pool, from which nodes
are drawn; a node is drawn once, so the search ends.

* `draw_size`: drawing moves nodes out of the pool, none is lost.
* `mem_draw`, `mem_draw_left`, `nodup_draw`: what is drawn, what stays, each node once.
* `nodup_explore`: no node is visited twice.
-/
namespace ProcCompiler

variable {α : Type} [Ord α] [Std.TransOrd α]

/-- Takes nodes out of the pool in the given order; a node that is not there, or no longer, is
passed over. The nodes taken, and the pool without them. -/
def draw : List α → Std.ExtTreeSet α → List α × Std.ExtTreeSet α
  | [], pool => ([], pool)
  | x :: xs, pool =>
    if x ∈ pool then
      let (taken, left) := draw xs (pool.erase x)
      (x :: taken, left)
    else draw xs pool

theorem size_erase_add_one {pool : Std.ExtTreeSet α} {x : α} (h : x ∈ pool) :
    (pool.erase x).size + 1 = pool.size := by
  have hc : pool.contains x = true := Std.ExtTreeSet.contains_iff_mem.mpr h
  have : pool.size ≠ 0 := fun h0 =>
    Std.ExtTreeSet.ne_empty_of_mem h (Std.ExtTreeSet.eq_empty_iff_size_eq_zero.mpr h0)
  rw [Std.ExtTreeSet.size_erase, if_pos hc]
  omega

theorem draw_size (xs : List α) (pool : Std.ExtTreeSet α) :
    (draw xs pool).1.length + (draw xs pool).2.size = pool.size := by
  induction xs generalizing pool with
  | nil => simp [draw]
  | cons x xs ih =>
    simp only [draw]
    split
    · rename_i h
      have := ih (pool.erase x)
      have := size_erase_add_one h
      simp only [List.length_cons]
      omega
    · exact ih pool

/-- The nodes of a layer, then those of the layers that follow. -/
def explore (next : α → List α) (layer : List α) (pool : Std.ExtTreeSet α) : List α :=
  match layer with
  | [] => []
  | x :: xs =>
    let drawn := draw ((x :: xs).flatMap next) pool
    (x :: xs) ++ explore next drawn.1 drawn.2
termination_by layer.length + pool.size
decreasing_by
  have := draw_size ((x :: xs).flatMap next) pool
  simp only [List.length_cons]
  omega

/-! ## What is drawn and visited -/

section Members

variable [Std.LawfulEqOrd α]

theorem mem_erase_iff {pool : Std.ExtTreeSet α} {x y : α} :
    y ∈ pool.erase x ↔ y ≠ x ∧ y ∈ pool := by
  rw [Std.ExtTreeSet.mem_erase, ne_eq, Std.LawfulEqOrd.compare_eq_iff_eq, ne_eq, eq_comm]

/-- Drawn is what was asked for and was in the pool. -/
theorem mem_draw {xs : List α} {pool : Std.ExtTreeSet α} {y : α} :
    y ∈ (draw xs pool).1 ↔ y ∈ xs ∧ y ∈ pool := by
  induction xs generalizing pool with
  | nil => simp [draw]
  | cons x xs ih =>
    simp only [draw]
    split
    · rename_i h
      simp only [List.mem_cons, ih, mem_erase_iff]
      constructor
      · rintro (rfl | ⟨hy, _, hp⟩)
        · exact ⟨.inl rfl, h⟩
        · exact ⟨.inr hy, hp⟩
      · rintro ⟨rfl | hy, hp⟩
        · exact .inl rfl
        · by_cases e : y = x
          · exact .inl e
          · exact .inr ⟨hy, e, hp⟩
    · rename_i h
      rw [ih]
      constructor
      · rintro ⟨hy, hp⟩
        exact ⟨List.mem_cons_of_mem _ hy, hp⟩
      · rintro ⟨hy, hp⟩
        rcases List.mem_cons.mp hy with rfl | hy
        · exact absurd hp h
        · exact ⟨hy, hp⟩

/-- What was not asked for stays in the pool. -/
theorem mem_draw_left {xs : List α} {pool : Std.ExtTreeSet α} {y : α} :
    y ∈ (draw xs pool).2 ↔ y ∉ xs ∧ y ∈ pool := by
  induction xs generalizing pool with
  | nil => simp [draw]
  | cons x xs ih =>
    simp only [draw]
    split
    · simp only [ih, mem_erase_iff, List.mem_cons, not_or]
      constructor
      · rintro ⟨hy, hx, hp⟩
        exact ⟨⟨hx, hy⟩, hp⟩
      · rintro ⟨⟨hx, hy⟩, hp⟩
        exact ⟨hy, hx, hp⟩
    · rename_i h
      simp only [ih, List.mem_cons, not_or]
      constructor
      · rintro ⟨hy, hp⟩
        exact ⟨⟨fun e => h (e ▸ hp), hy⟩, hp⟩
      · rintro ⟨⟨_, hy⟩, hp⟩
        exact ⟨hy, hp⟩

theorem nodup_draw (xs : List α) (pool : Std.ExtTreeSet α) : (draw xs pool).1.Nodup := by
  induction xs generalizing pool with
  | nil => simp [draw]
  | cons x xs ih =>
    simp only [draw]
    split
    · refine List.nodup_cons.mpr ⟨fun hx => ?_, ih _⟩
      exact (mem_erase_iff.mp (mem_draw.mp hx).2).1 rfl
    · exact ih pool

/-- Only the first layer and the pool are visited. -/
theorem mem_explore_imp {next : α → List α} {layer : List α} {pool : Std.ExtTreeSet α} {y : α}
    (h : y ∈ explore next layer pool) : y ∈ layer ∨ y ∈ pool := by
  fun_induction explore next layer pool with
  | case1 => simp at h
  | case2 pool x xs drawn ih =>
    rcases List.mem_append.mp h with h | h
    · exact .inl h
    · rcases ih h with h | h
      · exact .inr (mem_draw.mp h).2
      · exact .inr (mem_draw_left.mp h).2

theorem nodup_explore {next : α → List α} {layer : List α} {pool : Std.ExtTreeSet α}
    (hl : layer.Nodup) (hp : ∀ x ∈ layer, x ∉ pool) : (explore next layer pool).Nodup := by
  fun_induction explore next layer pool with
  | case1 => exact List.nodup_nil
  | case2 pool x xs drawn ih =>
    have fresh : ∀ y ∈ drawn.1, y ∉ drawn.2 :=
      fun y hy hy' => (mem_draw_left.mp hy').1 (mem_draw.mp hy).1
    refine List.nodup_append.mpr ⟨hl, ih (nodup_draw _ _) fresh, ?_⟩
    intro a ha b hb e
    subst e
    rcases mem_explore_imp hb with hb | hb
    · exact hp a ha (mem_draw.mp hb).2
    · exact hp a ha (mem_draw_left.mp hb).2

end Members

end ProcCompiler
