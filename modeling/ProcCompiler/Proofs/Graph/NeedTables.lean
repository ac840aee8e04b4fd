import Mathlib.Data.Finset.Card
import Mathlib.Data.Finset.Prod
import Mathlib.Data.Finset.Range
import ProcCompiler.Proofs.BitSet
import ProcCompiler.Proofs.Graph.Needs
import ProcCompiler.Proofs.Graph.Search
/-!
# The tables of needs

What blocks need is kept in two tables, one row a block: the variables in the order of their
discovery, and the same variables as a set. A queue holds the sites that are still to be followed
up. A need that is new goes into both rows and to the end of the queue; it is new if the set says
so. A site that is taken off the queue hands its need back to the predecessors that do not bind the
variable.

* `NeedTables.add`, `NeedTables.handBack`, `NeedTables.run`: a need, a site, the loop.
* `NeedTables.Holds.add`: a need that goes into the tables is a node that a search finds.
* `NeedTables.Holds.run`: the loop ends where the search ends.
* `Routine.tabulateNeeds_eq`, `Routine.tabulateNeeds_eq_none`: the tables say what `Needs` says, and
  there are tables just where there are needs.
-/
namespace ProcCompiler

/-- What is known of the needs of blocks, and what is to be followed up. -/
structure NeedTables where
  /-- For each block, what it needs in the order of discovery. -/
  order : Array (List Var)
  /-- For each block, what it needs as a set. -/
  known : Array BitSet
  queue : List Site

namespace NeedTables

/-! ## The loop -/

/-- The tables for so many blocks, before any need is known. -/
def start (size : Nat) : NeedTables where
  order := .replicate size []
  known := .replicate size {}
  queue := []

/-- Enters a need, if it is new. The block has to have a row, and the variable a place in a set. -/
def add (t : NeedTables) (s : Site) : Option NeedTables := do
  let vars ← t.known[s.block]?
  let (fresh, vars) ← vars.add? s.var
  return {
    order := if fresh then t.order.modify s.block (· ++ [s.var]) else t.order
    known := t.known.setIfInBounds s.block vars
    queue := if fresh then t.queue ++ [s] else t.queue }

/-- Hands the need at a site back to the predecessors that do not bind the variable. -/
def handBack (f : Routine) (g : FlowGraph) (t : NeedTables) (s : Site) : Option NeedTables :=
  (g.preds s.block).foldlM (fun t p =>
    if ((f.block p).binding? s.var).isSome then some t else t.add { s with block := p }) t

/-- Does the set of the block have the variable? -/
def has (t : NeedTables) (b : BlockId) (v : Var) : Bool := (t.known.getD b {}).contains v

/-- What the block needs, in the order of discovery. -/
def of (t : NeedTables) (b : BlockId) : List Var := t.order.getD b []

/-- The sites of some variables at which there could be a need that is not known yet. -/
def room (vars : Finset Var) (t : NeedTables) : Nat :=
  {x ∈ Finset.range t.known.size ×ˢ vars | t.has x.1 x.2 = false}.card

/-- The variables that are still to be followed up. -/
def pending (t : NeedTables) : Finset Var := (t.queue.map Site.var).toFinset

/-- The tables after a new need was entered. -/
def entered (t : NeedTables) (s : Site) : NeedTables where
  order := t.order.modify s.block (· ++ [s.var])
  known := t.known.modify s.block (·.insert s.var.toNat)
  queue := t.queue ++ [s]

/-- A need that is known changes nothing. -/
theorem add_eq {t : NeedTables} {s : Site} (hb : s.block < t.known.size) (hv : 0 ≤ s.var) :
    t.add s = some (if t.has s.block s.var then t else t.entered s) := by
  obtain ⟨b, v⟩ := s
  obtain ⟨k, rfl⟩ := Int.eq_ofNat_of_zero_le hv
  have hrow : t.known[b]? = some t.known[b] := Array.getElem?_eq_getElem hb
  have hhas : t.has b k = t.known[b].has k := by
    show (t.known.getD b {}).has k = _
    rw [Array.getD_eq_getD_getElem?, hrow, Option.getD_some]
  have hadd : t.known[b].add? k = some (!t.known[b].has k, t.known[b].insert k) := rfl
  have hset : t.known.setIfInBounds b (t.known[b].insert k) = t.known.modify b (·.insert k) := by
    refine Array.ext (by simp) fun i hi hi' => ?_
    rw [Array.getElem_setIfInBounds, Array.getElem_modify]
    split
    · rename_i he
      subst he
      rfl
    · rfl
  simp only [add, hrow, hhas, Option.bind_eq_bind, Option.bind_some, hadd]
  cases hk : t.known[b].has k with
  | true =>
    have hsame : t.known.setIfInBounds b (t.known[b].insert k) = t.known := by
      rw [BitSet.insert_of_has hk]
      refine Array.ext (by simp) fun i hi hi' => ?_
      rw [Array.getElem_setIfInBounds]
      split
      · rename_i he
        subst he
        rfl
      · rfl
    simp [hsame]
  | false => simp [entered, hset]

/-- Without a row, or a place in a set, there is no need to enter. -/
theorem add_eq_none {t : NeedTables} {s : Site} (h : s.block < t.known.size → s.var < 0) :
    t.add s = none := by
  obtain ⟨b, v⟩ := s
  by_cases hb : b < t.known.size
  · obtain ⟨k, rfl⟩ := Int.eq_negSucc_of_lt_zero (h hb)
    have hrow : t.known[b]? = some t.known[b] := Array.getElem?_eq_getElem hb
    simp only [add, hrow]
    rfl
  · have hrow : t.known[b]? = none := Array.getElem?_eq_none (Nat.le_of_not_lt hb)
    simp only [add, hrow]
    rfl

/-- What an addition does. -/
theorem add_cases {t t' : NeedTables} {s : Site} (h : t.add s = some t') :
    s.block < t.known.size ∧ 0 ≤ s.var ∧ t' = if t.has s.block s.var then t else t.entered s := by
  by_cases hs : s.block < t.known.size → s.var < 0
  · rw [add_eq_none hs] at h
    cases h
  · obtain ⟨hb, hv⟩ := Classical.not_imp.mp hs
    rw [add_eq hb (Int.not_lt.mp hv)] at h
    exact ⟨hb, Int.not_lt.mp hv, (Option.some.inj h).symm⟩

theorem of_entered {t : NeedTables} {s : Site} (hb : s.block < t.order.size) (b : BlockId) :
    (t.entered s).of b = t.of b ++ if s.block = b then [s.var] else [] := by
  simp only [of, entered, Array.getD_eq_getD_getElem?, Array.getElem?_modify]
  split
  · rename_i he
    subst he
    simp [hb]
  · simp

theorem has_entered {t : NeedTables} {s : Site} (hb : s.block < t.known.size) (hv : 0 ≤ s.var)
    (b : BlockId) (v : Var) : (t.entered s).has b v = (t.has b v || decide (s = ⟨b, v⟩)) := by
  obtain ⟨c, w⟩ := s
  obtain ⟨k, rfl⟩ := Int.eq_ofNat_of_zero_le hv
  simp only [has, entered, Array.getD_eq_getD_getElem?, Array.getElem?_modify]
  split
  · rename_i he
    subst he
    have hrow : t.known[c]? = some t.known[c] := Array.getElem?_eq_getElem hb
    simp only [hrow, Option.map_some, Option.getD_some, Site.mk.injEq, true_and]
    exact BitSet.contains_insert ..
  · rename_i hne
    simp [hne]

/-- A need that is entered has its room no longer. -/
theorem room_entered {t : NeedTables} {s : Site} (hb : s.block < t.known.size) (hv : 0 ≤ s.var)
    (hnew : t.has s.block s.var = false) {vars : Finset Var} (hs : s.var ∈ vars) :
    (t.entered s).room vars + 1 = t.room vars := by
  have hmem : (s.block, s.var) ∈
      {x ∈ Finset.range t.known.size ×ˢ vars | t.has x.1 x.2 = false} := by
    simp [hb, hs, hnew]
  have herase :
      {x ∈ Finset.range (t.entered s).known.size ×ˢ vars | (t.entered s).has x.1 x.2 = false} =
      {x ∈ Finset.range t.known.size ×ˢ vars | t.has x.1 x.2 = false}.erase (s.block, s.var) := by
    have hsize : (t.entered s).known.size = t.known.size := Array.size_modify
    ext ⟨b, v⟩
    have hne : s = ⟨b, v⟩ ↔ (b, v) = (s.block, s.var) := by
      obtain ⟨c, w⟩ := s
      rw [Site.mk.injEq, Prod.mk.injEq, eq_comm, @eq_comm _ w]
    rw [hsize, Finset.mem_filter, has_entered hb hv, Finset.mem_erase, Finset.mem_filter,
      Bool.or_eq_false_iff, decide_eq_false_iff_not, hne]
    tauto
  rw [room, herase]
  exact Finset.card_erase_add_one hmem

/-- An addition leaves the queue and the room together as large as they are. -/
theorem room_add {t t' : NeedTables} {s : Site} (h : t.add s = some t') {vars : Finset Var}
    (hs : s.var ∈ vars) : t'.queue.length + t'.room vars = t.queue.length + t.room vars := by
  obtain ⟨hb, hv, rfl⟩ := add_cases h
  split
  · rfl
  · rename_i hnew
    have hroom := room_entered hb hv (Bool.not_eq_true _ ▸ hnew) hs
    simp only [entered, List.length_append, List.length_singleton] at hroom ⊢
    omega

theorem pending_add {t t' : NeedTables} {s : Site} (h : t.add s = some t') {vars : Finset Var}
    (hs : s.var ∈ vars) (ht : t.pending ⊆ vars) : t'.pending ⊆ vars := by
  obtain ⟨-, -, rfl⟩ := add_cases h
  split
  · exact ht
  · intro v hv
    simp only [pending, entered, List.map_append, List.toFinset_append, Finset.mem_union] at hv
    rcases hv with hv | hv
    · exact ht hv
    · simp only [List.map_cons, List.map_nil, List.mem_toFinset, List.mem_singleton] at hv
      rw [hv]
      exact hs

/-- The same for many additions. -/
theorem room_addAll {sites : List Site} {t t' : NeedTables} (h : sites.foldlM add t = some t')
    {vars : Finset Var} (hs : ∀ s ∈ sites, s.var ∈ vars) (ht : t.pending ⊆ vars) :
    t'.queue.length + t'.room vars = t.queue.length + t.room vars ∧ t'.pending ⊆ vars := by
  induction sites generalizing t with
  | nil => cases h; exact ⟨rfl, ht⟩
  | cons s sites ih =>
    obtain ⟨u, hu, h⟩ := Option.bind_eq_some_iff.mp h
    have hvar := hs s List.mem_cons_self
    obtain ⟨hroom, hpending⟩ := ih h (fun x hx => hs x (List.mem_cons_of_mem _ hx))
      (pending_add hu hvar ht)
    exact ⟨hroom.trans (room_add hu hvar), hpending⟩

/-- To hand a need back is to add the needs of the predecessors. -/
theorem handBack_eq (f : Routine) (g : FlowGraph) (t : NeedTables) (s : Site) :
    t.handBack f g s = (f.needed g s).foldlM add t := by
  unfold handBack Routine.needed
  generalize g.preds s.block = preds
  induction preds generalizing t with
  | nil => rfl
  | cons p preds ih =>
    rw [List.foldlM_cons]
    cases hb : (f.block p).binding? s.var with
    | some r =>
      rw [List.filter_cons_of_neg (by simp [hb])]
      exact ih t
    | none =>
      rw [List.filter_cons_of_pos (by simp [hb]), List.map_cons, List.foldlM_cons]
      exact congrArg (Option.bind _) (funext ih)

theorem room_mono {t : NeedTables} {vars vars' : Finset Var} (h : vars ⊆ vars') :
    t.room vars ≤ t.room vars' :=
  Finset.card_le_card (Finset.filter_subset_filter _ (Finset.product_subset_product_right h))

/-- Follows up the sites of the queue, also those that are found on the way. -/
def run (f : Routine) (g : FlowGraph) (t : NeedTables) : Option NeedTables :=
  match _hq : t.queue with
  | [] => some t
  | s :: queue =>
    match _h : handBack f g { t with queue } s with
    | none => none
    | some t' => run f g t'
termination_by t.queue.length + t.room t.pending
decreasing_by
  have hs : s.var ∈ t.pending := by simp [pending, ‹t.queue = _›]
  have hsub : ({ t with queue } : NeedTables).pending ⊆ t.pending := by
    intro v hv
    simp only [pending, List.mem_toFinset] at hv ⊢
    rw [‹t.queue = _›]
    exact List.mem_cons_of_mem _ hv
  have hadd := ‹handBack f g _ s = some t'›
  rw [handBack_eq] at hadd
  obtain ⟨hroom, hpending⟩ := room_addAll hadd
    (fun x hx => (Routine.mem_needed.mp hx).2.2 ▸ hs) hsub
  have hmono : t'.room t'.pending ≤ t'.room t.pending := room_mono hpending
  have hlen : t.queue.length = queue.length + 1 := by rw [‹t.queue = _›, List.length_cons]
  have hsame : ({ t with queue } : NeedTables).room t.pending = t.room t.pending := rfl
  rw [hsame] at hroom
  dsimp only at hroom
  omega

/-! ## The tables and the search -/

/-- The tables hold what a search has found, and the queues are the same. -/
structure Holds (t : NeedTables) (s : Search Site) : Prop where
  queue : t.queue = s.queue
  size : t.order.size = t.known.size
  of : ∀ b, t.of b = Needs.of { sites := s.found } b
  has : ∀ b v, t.has b v = Needs.has { sites := s.found } b v

theorem holds_start (size : Nat) : Holds (start size) {} where
  queue := rfl
  size := by simp [start]
  of b := by
    show (Array.replicate size []).getD b [] = []
    rw [Array.getD_eq_getD_getElem?, Array.getElem?_replicate]
    split <;> rfl
  has b v := by
    show ((Array.replicate size {}).getD b {} : BitSet).contains v = false
    rw [Array.getD_eq_getD_getElem?, Array.getElem?_replicate]
    have hempty : ({} : BitSet).contains v = false :=
      Bool.eq_false_iff.mpr fun h => by
        have h : (BitSet.ofList []).contains v = true := h
        simpa using BitSet.contains_ofList.mp h
    split <;> exact hempty

namespace Holds

variable {t : NeedTables} {s : Search Site}

/-- A need that is added is a node that the search finds. -/
theorem add (h : Holds t s) {x : Site} (hb : x.block < t.known.size) (hv : 0 ≤ x.var) :
    ∃ t', t.add x = some t' ∧ Holds t' (s.add x) ∧ t'.known.size = t.known.size := by
  refine ⟨_, add_eq hb hv, ?_⟩
  have hhas : t.has x.block x.var = true ↔ x ∈ s.found := by
    rw [h.has, Needs.has, List.contains_iff_mem]
  by_cases hx : x ∈ s.found
  · rw [if_pos (hhas.mpr hx), Search.add, if_pos hx]
    exact ⟨h, rfl⟩
  · rw [if_neg fun hk => hx (hhas.mp hk), Search.add, if_neg hx]
    refine ⟨⟨?_, ?_, fun b => ?_, fun b v => ?_⟩, Array.size_modify⟩
    · rw [entered, h.queue]
    · simp only [entered, Array.size_modify, h.size]
    · rw [of_entered (h.size ▸ hb), h.of]
      simp only [Needs.of, List.filter_append, List.map_append, List.filter_singleton]
      split <;> simp [*]
    · rw [has_entered hb hv, h.has, Bool.eq_iff_iff]
      simp only [Needs.has, Bool.or_eq_true, List.contains_iff_mem, List.mem_append,
        List.mem_singleton, decide_eq_true_eq]
      rw [@eq_comm _ x]

theorem addAll {sites : List Site} (h : Holds t s)
    (hsites : ∀ x ∈ sites, x.block < t.known.size ∧ 0 ≤ x.var) :
    ∃ t', sites.foldlM NeedTables.add t = some t' ∧ Holds t' (s.addAll sites) ∧
      t'.known.size = t.known.size := by
  induction sites generalizing t s with
  | nil => exact ⟨t, rfl, h, rfl⟩
  | cons x sites ih =>
    obtain ⟨hb, hv⟩ := hsites x List.mem_cons_self
    obtain ⟨u, hu, hadd, hsize⟩ := h.add hb hv
    obtain ⟨t', ht', hall, hsize'⟩ := ih hadd fun y hy =>
      hsize ▸ hsites y (List.mem_cons_of_mem _ hy)
    refine ⟨t', ?_, hall, hsize'.trans hsize⟩
    rw [List.foldlM_cons, hu]
    exact ht'

section Loop

variable {f : Routine} {g : FlowGraph} {nodes pool : Std.ExtTreeSet Site} {all visited : List Site}
  (hnext : ∀ x y, x ∈ nodes → y ∈ f.needed g x → y ∈ nodes)

include hnext

/-- The site in front of the queue can be followed up, and the tables then hold what the search
holds. -/
theorem handBack (h : Holds t s) (htracks : Search.Tracks (f.needed g) nodes all visited s pool)
    (hnodes : ∀ x : Site, x ∈ nodes → x.block < t.known.size ∧ 0 ≤ x.var) {x : Site}
    {queue : List Site} (hq : t.queue = x :: queue) :
    ∃ t', NeedTables.handBack f g { t with queue } x = some t' ∧
      Holds t' (Search.addAll { s with queue } (f.needed g x)) ∧ t'.known.size = t.known.size := by
  have hx : x ∈ nodes := htracks.inside x (by rw [← htracks.found, ← h.queue, hq]; simp)
  have htaken : Holds { t with queue } { s with queue } := ⟨rfl, h.size, h.of, h.has⟩
  obtain ⟨t', ht', hall, hsize⟩ := htaken.addAll fun y hy => hnodes y (hnext x y hx hy)
  exact ⟨t', (handBack_eq f g _ x).trans ht', hall, hsize⟩

/-- The loop ends where the search ends. -/
theorem run (h : Holds t s) (htracks : Search.Tracks (f.needed g) nodes all visited s pool)
    (hnodes : ∀ x : Site, x ∈ nodes → x.block < t.known.size ∧ 0 ≤ x.var) :
    ∃ t', t.run f g = some t' ∧ Holds t' { queue := [], found := all } := by
  fun_induction NeedTables.run f g t generalizing s visited pool with
  | case1 t hq =>
    have hnil : s.queue = [] := h.queue.symm.trans hq
    have hall : s.found = all := by
      rw [← htracks.found, ← htracks.rest, hnil, sweep]
    exact ⟨t, rfl, hq, h.size, hall ▸ h.of, hall ▸ h.has⟩
  | case2 t x queue hq hnone =>
    obtain ⟨t', ht', -⟩ := h.handBack hnext htracks hnodes hq
    rw [hnone] at ht'
    cases ht'
  | case3 t x queue hq t' ht' ih =>
    obtain ⟨u, hu, hall, hsize⟩ := h.handBack hnext htracks hnodes hq
    cases ht'.symm.trans hu
    exact ih hall (htracks.take hnext (h.queue.symm.trans hq)) fun y hy => hsize ▸ hnodes y hy

end Loop

end Holds

end NeedTables

namespace Routine

variable {f : Routine} {g : FlowGraph}

/-- The tables of needs of a routine: those of the parameters, and all that follow from them. -/
def tabulateNeeds (f : Routine) (g : FlowGraph) : Option NeedTables := do
  (← (f.paramSites g).foldlM NeedTables.add (.start f.blocks.size)).run f g

/-- The tables of needs say what `Needs` says. -/
theorem tabulateNeeds_eq {n : Needs} (hn : f.needs g = .ok n)
    (hb : ∀ b ∈ g.order, b < f.blocks.size) :
    ∃ t, f.tabulateNeeds g = some t ∧ (∀ b, t.of b = n.of b) ∧ ∀ b v, t.has b v = n.has b v := by
  have hnodes : ∀ x : Site, x ∈ (.ofList (f.candidateSites g) : Std.ExtTreeSet Site) →
      x.block < f.blocks.size ∧ 0 ≤ x.var := fun x hx =>
    ⟨hb _ (mem_candidates.mp hx).1, nonneg_of_needs hn (mem_candidates.mp hx).2⟩
  have hsites : ∀ x ∈ f.paramSites g,
      x.block < (NeedTables.start f.blocks.size).known.size ∧ 0 ≤ x.var := by
    intro x hx
    rw [NeedTables.start, Array.size_replicate]
    exact hnodes x (candidate_of_param hx)
  obtain ⟨t, ht, hholds, hsize⟩ := (NeedTables.holds_start f.blocks.size).addAll hsites
  have hsize : t.known.size = f.blocks.size := hsize.trans Array.size_replicate
  obtain ⟨t', ht', hall⟩ := hholds.run (fun _ _ => candidate_of_needed)
    (Search.tracks_start fun _ => candidate_of_param) (by rw [hsize]; exact hnodes)
  refine ⟨t', ?_, fun b => ?_, fun b v => ?_⟩
  · rw [tabulateNeeds, ht]
    exact ht'
  · rw [hall.of, ← needs_sites hn]
  · rw [hall.has, ← needs_sites hn]

/-- Where there are no needs, because a variable is negative, there are no tables either. -/
theorem tabulateNeeds_eq_none {e : Violation} (he : f.needs g = .error e) :
    f.tabulateNeeds g = none := by
  obtain ⟨v, hv, hneg⟩ : ∃ v ∈ f.awaited g, v < 0 := by
    by_contra hall
    obtain ⟨n, hn⟩ := exists_needs (f := f) (g := g) fun b hb v hv => by
      by_contra hneg
      exact hall ⟨v, mem_awaited.mpr ⟨b, hb, hv⟩, Int.not_le.mp hneg⟩
    rw [hn] at he
    cases he
  obtain ⟨b, hb, hvb⟩ := mem_awaited.mp hv
  have hmem : (⟨b, v⟩ : Site) ∈ f.paramSites g := mem_paramSites.mpr ⟨hb, hvb⟩
  have hseeds : ∀ t, (f.paramSites g).foldlM NeedTables.add t = none := by
    generalize f.paramSites g = sites at hmem
    induction sites with
    | nil => cases hmem
    | cons x sites ih =>
      intro t
      rw [List.foldlM_cons]
      rcases List.mem_cons.mp hmem with rfl | hmem
      · rw [NeedTables.add_eq_none fun _ => hneg]
        rfl
      · cases t.add x with
        | none => rfl
        | some u => exact ih hmem u
  rw [tabulateNeeds, hseeds]
  rfl

end Routine

end ProcCompiler
