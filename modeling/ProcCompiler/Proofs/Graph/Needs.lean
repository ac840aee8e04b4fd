import ProcCompiler.Proofs.Graph.Reach
import ProcCompiler.Needs
/-!
# Needs are upward exposure

A block needs a variable if some path of jumps from it leads to a block that waits for the variable,
and no block of the path before that one binds it. The search for needs finds exactly these, each
once.

* `Needed`: the path, read from its end.
* `mem_of_iff`: what the search lists for a block is what it needs.
* `exists_needs`: the search fails on negative variables only.
-/
namespace ProcCompiler

namespace Routine

/-- A reached block needs a variable: it waits for it, or hands the need of a successor on. -/
inductive Needed (f : Routine) (g : FlowGraph) : BlockId → Var → Prop where
  | param {b : BlockId} {v : Var} (hb : b ∈ g.order) (hv : v ∈ (f.block b).params) : Needed f g b v
  | back {p b : BlockId} {v : Var} (hp : p ∈ g.preds b) (hfree : (f.block p).binding? v = none)
      (h : Needed f g b v) : Needed f g p v

theorem Needed.mem_order {f : Routine} {g : FlowGraph} {b : BlockId} {v : Var}
    (h : Needed f g b v) :
    b ∈ g.order := by
  cases h with
  | param hb _ => exact hb
  | back hp _ _ => exact (FlowGraph.mem_preds.mp hp).1

/-- Some reached block waits for what is needed. -/
theorem Needed.exists_param {f : Routine} {g : FlowGraph} {b : BlockId} {v : Var}
    (h : Needed f g b v) :
    ∃ c ∈ g.order, v ∈ (f.block c).params := by
  induction h with
  | param hb hv => exact ⟨_, hb, hv⟩
  | back _ _ _ ih => exact ih

variable {f : Routine} {g : FlowGraph}

theorem mem_awaited {v : Var} : v ∈ f.awaited g ↔ ∃ b ∈ g.order, v ∈ (f.block b).params := by
  simp [awaited, List.mem_eraseDups]

theorem mem_candidateSites {s : Site} :
    s ∈ f.candidateSites g ↔ s.block ∈ g.order ∧ s.var ∈ f.awaited g := by
  simp only [candidateSites, List.mem_flatMap, List.mem_map]
  constructor
  · rintro ⟨b, hb, v, hv, rfl⟩; exact ⟨hb, hv⟩
  · rintro ⟨hb, hv⟩; exact ⟨s.block, hb, s.var, hv, rfl⟩

theorem mem_paramSites {s : Site} :
    s ∈ f.paramSites g ↔ s.block ∈ g.order ∧ s.var ∈ (f.block s.block).params := by
  simp only [paramSites, List.mem_flatMap, List.mem_map]
  constructor
  · rintro ⟨b, hb, v, hv, rfl⟩; exact ⟨hb, hv⟩
  · rintro ⟨hb, hv⟩; exact ⟨s.block, hb, s.var, hv, rfl⟩

theorem mem_needed {s t : Site} :
    t ∈ f.needed g s ↔
      t.block ∈ g.preds s.block ∧ (f.block t.block).binding? s.var = none ∧ t.var = s.var := by
  simp only [needed, List.mem_map, List.mem_filter, Option.isNone_iff_eq_none]
  constructor
  · rintro ⟨p, ⟨hp, hn⟩, rfl⟩; exact ⟨hp, hn, rfl⟩
  · rintro ⟨hp, hn, hv⟩
    exact ⟨t.block, ⟨hp, hn⟩, by cases t; cases hv; rfl⟩

/-- What could be needed, as a set of sites. -/
theorem mem_candidates {s : Site} :
    s ∈ (.ofList (f.candidateSites g) : Std.ExtTreeSet Site) ↔ s.block ∈ g.order ∧
      s.var ∈ f.awaited g := by
  rw [Std.ExtTreeSet.mem_ofList, List.contains_iff_mem, mem_candidateSites]

theorem candidate_of_param {s : Site} (h : s ∈ f.paramSites g) :
    s ∈ (.ofList (f.candidateSites g) : Std.ExtTreeSet Site) := by
  obtain ⟨hb, hv⟩ := mem_paramSites.mp h
  exact mem_candidates.mpr ⟨hb, mem_awaited.mpr ⟨_, hb, hv⟩⟩

theorem candidate_of_needed {s t : Site}
    (hs : s ∈ (.ofList (f.candidateSites g) : Std.ExtTreeSet Site))
    (ht : t ∈ f.needed g s) : t ∈ (.ofList (f.candidateSites g) : Std.ExtTreeSet Site) := by
  obtain ⟨hp, -, hv⟩ := mem_needed.mp ht
  exact mem_candidates.mpr ⟨(FlowGraph.mem_preds.mp hp).1, hv ▸ (mem_candidates.mp hs).2⟩

/-- Handing needs back from a parameter is being needed. -/
theorem needed_iff_reach {s : Site} :
    Needed f g s.block s.var ↔
      ∃ t ∈ f.paramSites g, Relation.ReflTransGen (fun a b => b ∈ f.needed g a) t s := by
  constructor
  · intro h
    obtain ⟨b, v⟩ := s
    change Needed f g b v at h
    induction h with
    | param hb hv => exact ⟨_, mem_paramSites.mpr ⟨hb, hv⟩, .refl⟩
    | @back p b v hp hfree _ ih =>
      obtain ⟨t, ht, hts⟩ := ih
      exact ⟨t, ht, .tail hts (mem_needed.mpr ⟨hp, hfree, rfl⟩)⟩
  · rintro ⟨t, ht, hts⟩
    induction hts with
    | refl => exact .param (mem_paramSites.mp ht).1 (mem_paramSites.mp ht).2
    | tail _ hbc ih =>
      obtain ⟨hp, hfree, hv⟩ := mem_needed.mp hbc
      rw [hv]
      exact .back hp hfree ih

/-- The search over sites, from the parameters back. -/
theorem mem_search_iff {s : Site} :
    s ∈ explore (f.needed g) (draw (f.paramSites g) (.ofList (f.candidateSites g))).1
      (draw (f.paramSites g) (.ofList (f.candidateSites g))).2 ↔ Needed f g s.block s.var := by
  rw [mem_explore_iff, needed_iff_reach]
  · constructor
    · rintro ⟨t, ht, h⟩; exact ⟨t, (mem_draw.mp ht).1, h⟩
    · rintro ⟨t, ht, h⟩; exact ⟨t, mem_draw.mpr ⟨ht, candidate_of_param ht⟩, h⟩
  · intro a b ha hb
    have hbc : b ∈ (.ofList (f.candidateSites g) : Std.ExtTreeSet Site) := by
      refine candidate_of_needed (s := a) ?_ hb
      rcases ha with ha | ha
      · exact (mem_draw.mp ha).2
      · exact (mem_draw_left.mp ha).2
    by_cases hd : b ∈ f.paramSites g
    · exact .inl (mem_draw.mpr ⟨hd, hbc⟩)
    · exact .inr (mem_draw_left.mpr ⟨hd, hbc⟩)

/-- Without negative variables the search succeeds. -/
theorem exists_needs (h : ∀ b ∈ g.order, ∀ v ∈ (f.block b).params, 0 ≤ v) :
    ∃ n, f.needs g = .ok n := by
  unfold needs
  have hn : (f.awaited g).find? (· < 0) = none := by
    rw [List.find?_eq_none]
    intro v hv
    obtain ⟨b, hb, hvb⟩ := mem_awaited.mp hv
    simpa using Int.not_lt.mpr (h b hb v hvb)
  rw [hn]
  exact ⟨_, rfl⟩

variable {n : Needs}

theorem needs_sites (h : f.needs g = .ok n) :
    n.sites = explore (f.needed g) (draw (f.paramSites g) (.ofList (f.candidateSites g))).1
      (draw (f.paramSites g) (.ofList (f.candidateSites g))).2 := by
  unfold needs at h
  split at h
  · cases h
  · cases h; rfl

/-- Where needs are found no variable is negative. -/
theorem nonneg_of_needs (h : f.needs g = .ok n) {v : Var} (hv : v ∈ f.awaited g) : 0 ≤ v := by
  unfold needs at h
  split at h
  · cases h
  · rename_i hfind
    simpa using List.find?_eq_none.mp hfind v hv

/-- No site is listed twice. -/
theorem nodup_sites (h : f.needs g = .ok n) : n.sites.Nodup := by
  rw [needs_sites h]
  exact nodup_explore (nodup_draw _ _) fun x hx hx' => (mem_draw_left.mp hx').1 (mem_draw.mp hx).1

theorem mem_sites_iff (h : f.needs g = .ok n) {s : Site} :
    s ∈ n.sites ↔ Needed f g s.block s.var := by
  rw [needs_sites h, mem_search_iff]

end Routine

namespace Needs

theorem mem_of {n : Needs} {b : BlockId} {v : Var} :
    v ∈ n.of b ↔ { block := b, var := v } ∈ n.sites := by
  simp only [of, List.mem_map, List.mem_filter, decide_eq_true_eq]
  constructor
  · rintro ⟨s, ⟨hs, rfl⟩, rfl⟩; exact hs
  · intro h; exact ⟨_, ⟨h, rfl⟩, rfl⟩

/-- What is listed for a block is listed once. -/
theorem nodup_of {n : Needs} (h : n.sites.Nodup) (b : BlockId) : (n.of b).Nodup := by
  refine List.Nodup.map_on ?_ (h.filter _)
  intro s hs t ht hv
  simp only [List.mem_filter, decide_eq_true_eq] at hs ht
  cases s
  cases t
  simp_all

end Needs

/-- The search lists for a block exactly what it needs. -/
theorem Routine.mem_of_iff {f : Routine} {g : FlowGraph} {n : Needs} (h : f.needs g = .ok n)
    {b : BlockId} {v : Var} : v ∈ n.of b ↔ Needed f g b v := by
  rw [Needs.mem_of, mem_sites_iff h]

end ProcCompiler
