import Mathlib.Data.Finset.Card
import Mathlib.Data.Finset.Range
import ProcCompiler.Proofs.BitSet
import ProcCompiler.Proofs.Graph.Analyze
import ProcCompiler.Proofs.Graph.Search
/-!
# The survey of a graph

The tables of a flow graph are filled by one loop. It walks along the order, which starts with the
entry, and grows while it is walked. A block that is visited gets its place; each of its jumps is
entered in the row of its target, and a target that was not met before goes to the end of the order.
So a row lists the blocks that jump to one block in the order in which they are visited, not in the
order in which the block is met. A row is looked up only if the table has it, and the loop ends
because a block goes to the order once.

* `Survey.follow`, `Survey.visit`, `Survey.run`: a jump, a block, the loop.
* `Survey.Visited`: what the visit of a block does to the tables.
* `Survey.Fits.visit`: what it keeps.
* `Survey.Fits.run`: the loop ends, and never looks for a row that is not there.
* `Survey.exists_shows`: the tables are what a flow graph says of its order.
-/
namespace ProcCompiler

/-- The tables of a graph, as far as they are filled. -/
structure Survey where
  /-- The blocks that were met, the entry first. -/
  order : List BlockId
  reachable : BitSet
  /-- For each block, the visited blocks that jump to it. -/
  rows : Array (List BlockId)
  /-- For each block its place in the order, and `-1` as long as it is not visited. -/
  places : Array Int
deriving DecidableEq

namespace Survey

/-! ## The loop -/

/-- Before the first visit only the entry was met. -/
def start (size : Nat) : Survey where
  order := [entry]
  reachable := BitSet.insert {} entry
  rows := .replicate size []
  places := .replicate size (-1)

/-- Enters a jump from `a` to `b`. There has to be a row for `b`. -/
def follow (a : BlockId) (t : Survey) (b : BlockId) : Option Survey :=
  if b < t.rows.size then do
    let (fresh, reachable) ← t.reachable.add? b
    return { t with
      rows := t.rows.modify b (· ++ [a])
      reachable
      order := if fresh then t.order ++ [b] else t.order }
  else none

/-- Visits the block `a`, whose place is `i`: it gets its place, and its jumps are followed. -/
def visit (table : Array (List BlockId)) (i : Nat) (t : Survey) (a : BlockId) : Option Survey := do
  let succs ← table[a]?
  if a < t.places.size then succs.foldlM (follow a) { t with places := t.places.setIfInBounds a i }
  else none

/-- The blocks that have a row and were not met. -/
def room (t : Survey) : Nat := {b ∈ Finset.range t.rows.size | t.reachable.has b = false}.card

/-- The tables after a jump was entered. -/
def entered (a : BlockId) (t : Survey) (b : BlockId) : Survey :=
  { t with
    rows := t.rows.modify b (· ++ [a])
    reachable := t.reachable.insert b
    order := if t.reachable.has b then t.order else t.order ++ [b] }

theorem follow_eq {t : Survey} {a b : BlockId} (hb : b < t.rows.size) :
    t.follow a b = some (t.entered a b) := by
  have hadd : t.reachable.add? b = some (!t.reachable.has b, t.reachable.insert b) := rfl
  rw [follow, if_pos hb, hadd, entered]
  cases t.reachable.has b <;> rfl

/-- A block that is met has its room no longer. -/
theorem room_follow {t t' : Survey} {a b : BlockId} (h : t.follow a b = some t') :
    t'.order.length + t'.room = t.order.length + t.room := by
  by_cases hb : b < t.rows.size
  · rw [follow_eq hb] at h
    cases h
    simp only [room, entered, Array.size_modify, BitSet.has_insert]
    cases hmet : t.reachable.has b with
    | true =>
      have hsame : ∀ x, (t.reachable.has x || decide (x = b)) = t.reachable.has x := by
        intro x
        by_cases hx : x = b
        · simp [hx, hmet]
        · simp [hx]
      simp only [hsame, if_true]
    | false =>
      have hmem : b ∈ {x ∈ Finset.range t.rows.size | t.reachable.has x = false} := by
        simp [hb, hmet]
      have herase : {x ∈ Finset.range t.rows.size | (t.reachable.has x || decide (x = b)) = false} =
          {x ∈ Finset.range t.rows.size | t.reachable.has x = false}.erase b := by
        ext x
        simp only [Finset.mem_filter, Finset.mem_erase, Bool.or_eq_false_iff,
          decide_eq_false_iff_not]
        tauto
      have hcard := Finset.card_erase_add_one hmem
      simp only [herase, Bool.false_eq_true, if_false, List.length_append, List.length_singleton]
      omega
  · rw [follow, if_neg hb] at h
    cases h

theorem room_foldlM_follow {a : BlockId} {succs : List BlockId} {t t' : Survey}
    (h : succs.foldlM (follow a) t = some t') :
    t'.order.length + t'.room = t.order.length + t.room := by
  induction succs generalizing t with
  | nil => cases h; rfl
  | cons b succs ih =>
    obtain ⟨u, hb, h⟩ := Option.bind_eq_some_iff.mp h
    rw [ih h, room_follow hb]

theorem room_visit {table : Array (List BlockId)} {i : Nat} {t t' : Survey} {a : BlockId}
    (h : t.visit table i a = some t') : t'.order.length + t'.room = t.order.length + t.room := by
  unfold visit at h
  obtain ⟨succs, -, h⟩ := Option.bind_eq_some_iff.mp h
  split at h
  · have hroom := room_foldlM_follow h
    exact hroom
  · cases h

/-- Visits the blocks from place `i` on, also those that are met on the way. -/
def run (table : Array (List BlockId)) (i : Nat) (t : Survey) : Option Survey :=
  match _ha : t.order[i]? with
  | none => some t
  | some a =>
    match _h : t.visit table i a with
    | none => none
    | some t' => run table (i + 1) t'
termination_by t.order.length + t.room - i
decreasing_by
  have hlt := (List.getElem?_eq_some_iff.mp ‹t.order[i]? = some a›).1
  have := room_visit ‹t.visit table i a = some t'›
  omega

/-- The survey of the graph with the given successors. -/
def of (table : Array (List BlockId)) : Option Survey := run table 0 (start table.size)

/-- The blocks that jump to `b`. -/
def preds (t : Survey) (b : BlockId) : List BlockId := t.rows.getD b []

/-- The place of a block; what is no block has none. -/
def index (t : Survey) : Label → Int
  | .ofNat b => t.places.getD b (-1)
  | .negSucc _ => -1

/-! ## Jumps -/

theorem reachable_entered {t : Survey} (h : t.reachable = .ofList t.order) (a b : BlockId) :
    (t.entered a b).reachable = .ofList (t.entered a b).order := by
  simp only [entered]
  split
  · rw [BitSet.insert_of_has ‹_›, h]
  · rw [BitSet.ofList_concat, h]

/-- A block is met as a search finds it. -/
theorem order_entered {t : Survey} (h : t.reachable = .ofList t.order) {s : Search BlockId}
    (hs : s.found = t.order) (a b : BlockId) : (t.entered a b).order = (s.add b).found := by
  simp only [entered, Search.add, h, BitSet.has_ofList, decide_eq_true_eq, hs]
  split <;> simp [hs]

theorem preds_entered {t : Survey} {a b : BlockId} (hb : b < t.rows.size) (c : BlockId) :
    (t.entered a b).preds c = t.preds c ++ List.replicate (if b = c then 1 else 0) a := by
  simp only [preds, entered, Array.getD_eq_getD_getElem?, Array.getElem?_modify]
  split
  · rename_i he
    subst he
    simp [hb]
  · simp

/-- Jumps to blocks that have a row: the blocks are met as a search finds them, and the row of a
block grows by one for every jump to it. -/
theorem foldlM_follow_eq_some {a : BlockId} {succs : List BlockId} {t : Survey} {s : Search BlockId}
    (hsuccs : ∀ b ∈ succs, b < t.rows.size) (hmet : t.reachable = .ofList t.order)
    (hs : s.found = t.order) :
    ∃ t', succs.foldlM (follow a) t = some t' ∧ t'.order = (s.addAll succs).found ∧
      t'.reachable = .ofList t'.order ∧ t'.rows.size = t.rows.size ∧ t'.places = t.places ∧
      ∀ b, t'.preds b = t.preds b ++ List.replicate (succs.count b) a := by
  induction succs generalizing t s with
  | nil => exact ⟨t, rfl, hs.symm, hmet, rfl, rfl, fun b => by simp⟩
  | cons c succs ih =>
    have hc := hsuccs c List.mem_cons_self
    have hsize : (t.entered a c).rows.size = t.rows.size := Array.size_modify
    obtain ⟨t', ht', horder, hreach, hrows, hplaces, hpreds⟩ :=
      ih (t := t.entered a c) (s := s.add c)
      (fun b hb => hsize ▸ hsuccs b (List.mem_cons_of_mem _ hb)) (reachable_entered hmet a c)
      (order_entered hmet hs a c).symm
    refine ⟨t', ?_, horder, hreach, hrows.trans hsize, hplaces, fun b => ?_⟩
    · rw [List.foldlM_cons, follow_eq hc]
      exact ht'
    · rw [hpreds, preds_entered hc, List.append_assoc, List.replicate_append_replicate,
        List.count_cons, Nat.add_comm, beq_eq_decide]
      simp only [decide_eq_true_eq]

/-! ## Visits -/

/-- What the visit of a block at place `i` does to the tables. -/
structure Visited (table : Array (List BlockId)) (i : Nat) (a : BlockId) (t t' : Survey) :
    Prop where
  order : t'.order = (Search.addAll { queue := t.order.drop (i + 1), found := t.order }
    (table.getD a [])).found
  reachable : t'.reachable = .ofList t'.order
  rows_size : t'.rows.size = t.rows.size
  places : t'.places = t.places.setIfInBounds a i
  preds : ∀ b, t'.preds b = t.preds b ++ List.replicate ((table.getD a []).count b) a

theorem exists_visited {table : Array (List BlockId)} {i : Nat} {a : BlockId} {t : Survey}
    (ha : a < table.size) (hplace : a < t.places.size)
    (hrows : ∀ b ∈ table.getD a [], b < t.rows.size) (hmet : t.reachable = .ofList t.order) :
    ∃ t', t.visit table i a = some t' ∧ Visited table i a t t' := by
  let s : Search BlockId := { queue := t.order.drop (i + 1), found := t.order }
  let placed : Survey := { t with places := t.places.setIfInBounds a i }
  obtain ⟨t', ht', horder, hreach, hrows, hplaces, hpreds⟩ :=
    @foldlM_follow_eq_some a _ placed s hrows hmet rfl
  refine ⟨t', ?_, horder, hreach, hrows, hplaces, hpreds⟩
  have hrow : table[a]? = some (table.getD a []) := by simp [ha]
  rw [visit, hrow]
  exact (if_pos hplace).trans ht'

theorem getElem?_concat {α : Type} {xs : List α} {x y : α} {j : Nat}
    (h : (xs ++ [x])[j]? = some y) : xs[j]? = some y ∨ xs.length = j ∧ x = y := by
  rw [List.getElem?_append] at h
  split at h
  · exact .inl h
  · rw [List.getElem?_singleton] at h
    split at h
    · exact .inr ⟨by omega, Option.some.inj h⟩
    · cases h

namespace Visited

variable {table : Array (List BlockId)} {i : Nat} {a : BlockId} {t t' : Survey}
  (h : Visited table i a t t')

include h

/-- The visited blocks are followed by the queue, so they are a beginning of the order. -/
theorem split (hi : i < t.order.length) (hfound : (t.order.take i ++ [a]) ++
      (Search.addAll { queue := t.order.drop (i + 1), found := t.order } (table.getD a [])).queue =
        (Search.addAll { queue := t.order.drop (i + 1), found := t.order }
          (table.getD a [])).found) :
    t'.order.take (i + 1) = t.order.take i ++ [a] ∧ t'.order.drop (i + 1) =
      (Search.addAll { queue := t.order.drop (i + 1), found := t.order }
        (table.getD a [])).queue := by
  have hlen : (t.order.take i ++ [a]).length = i + 1 := by
    rw [List.length_append, List.length_take, List.length_singleton]
    omega
  rw [h.order, ← hfound, ← hlen]
  exact ⟨List.take_left, List.drop_left⟩

/-- The block that was visited has its place, and the other places stay. -/
theorem index (ha : a < t.places.size) (b : BlockId) :
    t'.index b = if a = b then (i : Int) else t.index b := by
  show t'.places.getD b (-1) = if a = b then (i : Int) else t.places.getD b (-1)
  rw [h.places, Array.getD_eq_getD_getElem?, Array.getD_eq_getD_getElem?,
    Array.getElem?_setIfInBounds, if_pos ha]
  split <;> rfl

/-- A block that jumps to another one once is entered once. -/
theorem preds_concat (hnodup : (table.getD a []).Nodup) (b : BlockId) :
    t'.preds b = t.preds b ++ [a].filter (b ∈ table.getD · []) := by
  rw [h.preds, List.filter_singleton]
  by_cases hm : b ∈ table.getD a []
  · rw [List.count_eq_one_of_mem hnodup hm, decide_eq_true hm]
    rfl
  · rw [List.count_eq_zero_of_not_mem hm, decide_eq_false hm]
    rfl

end Visited

/-- The tables after the visits before place `i`, of a search that takes the blocks of `all`. -/
structure Fits (table : Array (List BlockId)) (all : List BlockId) (i : Nat) (t : Survey) :
    Prop where
  tracks : ∃ pool, Search.Tracks (fun a => table.getD a []) (.ofList (List.range table.size)) all
    (t.order.take i) { queue := t.order.drop i, found := t.order } pool
  reachable : t.reachable = .ofList t.order
  rows_size : t.rows.size = table.size
  places_size : t.places.size = table.size
  preds : ∀ b, t.preds b = (t.order.take i).filter (b ∈ table.getD · [])
  index : ∀ (b : BlockId) (j : Nat), (t.order.take i)[j]? = some b → t.index b = j
  unvisited : ∀ b : BlockId, b ∉ t.order.take i → t.index b = -1

section Fits

variable {table : Array (List BlockId)} {all : List BlockId} (hb : FlowGraph.Bounded table)
  (hsuccs : ∀ a, (table.getD a []).Nodup) (hall : all.Nodup)

include hb hsuccs hall

/-- The visit of the next block succeeds, and keeps what is known of the tables. -/
theorem Fits.visit {i : Nat} {t : Survey} (h : Fits table all i t) {a : BlockId}
    (ha : t.order[i]? = some a) :
    ∃ t', t.visit table i a = some t' ∧ Fits table all (i + 1) t' := by
  obtain ⟨pool, htracks⟩ := h.tracks
  have hlt : a < table.size := by
    have := htracks.inside a (List.mem_of_getElem? ha)
    simpa using this
  obtain ⟨hi, hai⟩ := List.getElem?_eq_some_iff.mp ha
  have hdrop : t.order.drop i = a :: t.order.drop (i + 1) := by
    rw [List.drop_eq_getElem_cons hi, hai]
  have hnext := htracks.take (fun x y _ hy => by
    have := hb x y hy
    simpa using this) hdrop
  have hplace : a < t.places.size := h.places_size ▸ hlt
  have hfresh : a ∉ t.order.take i := by
    have hnodup : t.order.Nodup := hall.sublist htracks.found_isPrefix.sublist
    rw [← List.take_append_drop i t.order, hdrop] at hnodup
    exact fun hm => (List.nodup_append.mp hnodup).2.2 a hm a List.mem_cons_self rfl
  obtain ⟨t', ht', hv⟩ :=
    exists_visited hlt hplace (fun b hm => h.rows_size ▸ hb a b hm) h.reachable
  obtain ⟨htake, hqueue⟩ := hv.split hi hnext.found
  refine ⟨t', ht', ⟨(draw (table.getD a []) pool).2, ?_⟩, hv.reachable,
    hv.rows_size.trans h.rows_size, ?_, fun b => ?_, fun b j hj => ?_, fun b hm => ?_⟩
  · rw [htake, hqueue, hv.order]
    exact hnext
  · rw [hv.places, Array.size_setIfInBounds, h.places_size]
  · rw [hv.preds_concat (hsuccs a), htake, List.filter_append, h.preds]
  · rw [hv.index hplace]
    rw [htake] at hj
    rcases getElem?_concat hj with hj | ⟨rfl, rfl⟩
    · rw [if_neg, h.index b j hj]
      rintro rfl
      exact hfresh (List.mem_of_getElem? hj)
    · rw [if_pos rfl, List.length_take, Nat.min_eq_left (Nat.le_of_lt hi)]
  · rw [htake, List.mem_append, List.mem_singleton, not_or] at hm
    rw [hv.index hplace, if_neg (Ne.symm hm.2), h.unvisited b hm.1]

/-- The loop ends, and then all blocks are visited. -/
theorem Fits.run {i : Nat} {t : Survey} (h : Fits table all i t) :
    ∃ t' j, run table i t = some t' ∧ t'.order = all ∧ t'.order.length ≤ j ∧
      Fits table all j t' := by
  fun_induction Survey.run table i t with
  | case1 i t hnone =>
    have hle := List.getElem?_eq_none_iff.mp hnone
    refine ⟨t, i, rfl, ?_, hle, h⟩
    -- nothing is left to visit, so nothing is left to sweep
    obtain ⟨pool, htracks⟩ := h.tracks
    have hrest := htracks.rest
    rwa [List.drop_of_length_le hle, List.take_of_length_le hle, sweep, List.append_nil] at hrest
  | case2 i t a ha hnone =>
    obtain ⟨t', ht', -⟩ := h.visit hb hsuccs hall ha
    rw [hnone] at ht'
    cases ht'
  | case3 i t a ha t' ht' ih =>
    obtain ⟨u, hu, hfits⟩ := h.visit hb hsuccs hall ha
    cases ht'.symm.trans hu
    exact ih hfits

end Fits

/-! ## The whole survey -/

/-- Of the tables only the entry is known. -/
theorem fits_start {table : Array (List BlockId)} (h0 : entry < table.size) :
    Fits table (FlowGraph.ofTable table).order 0 (start table.size) where
  tracks := by
    have hmem : entry ∈ (.ofList (List.range table.size) : Std.ExtTreeSet BlockId) := by
      rw [Std.ExtTreeSet.mem_ofList, List.contains_iff_mem]
      exact List.mem_range.mpr h0
    have hpool : (.ofList (List.range table.size) : Std.ExtTreeSet BlockId).erase entry =
        .ofList ((List.range table.size).erase entry) := by
      refine Std.ExtTreeSet.ext_mem fun b => ?_
      rw [mem_erase_iff, Std.ExtTreeSet.mem_ofList, Std.ExtTreeSet.mem_ofList,
        List.contains_iff_mem, List.contains_iff_mem, List.nodup_range.mem_erase_iff]
    have hseeds : ∀ b ∈ [entry], b ∈ (.ofList (List.range table.size) : Std.ExtTreeSet BlockId) :=
      fun b hb => List.mem_singleton.mp hb ▸ hmem
    have h : Search.Tracks (fun a => table.getD a []) _ _ _ _ _ := Search.tracks_start hseeds
    simp only [draw, if_pos hmem, hpool] at h
    exact ⟨_, h⟩
  reachable := rfl
  rows_size := Array.size_replicate
  places_size := Array.size_replicate
  preds b := by
    show (Array.replicate table.size []).getD b [] = []
    rw [Array.getD_eq_getD_getElem?, Array.getElem?_replicate]
    split <;> rfl
  index b j hj := by cases hj
  unvisited b _ := by
    show (Array.replicate table.size (-1)).getD b (-1) = -1
    rw [Array.getD_eq_getD_getElem?, Array.getElem?_replicate]
    split <;> rfl

/-- The tables show a graph: they hold its order, and what the order says of predecessors and
places. -/
structure Shows (t : Survey) (g : FlowGraph) : Prop where
  order : t.order = g.order
  reachable : t.reachable = g.reachable
  preds : ∀ b, t.preds b = g.preds b
  index : ∀ l, t.index l = ((g.find? l).bind g.index?).elim (-1) Int.ofNat

/-- With every block visited the tables show the graph. -/
theorem Fits.shows {table : Array (List BlockId)} {t : Survey} {j : Nat}
    (h : Fits table (FlowGraph.ofTable table).order j t)
    (hall : t.order = (FlowGraph.ofTable table).order) (hj : t.order.length ≤ j) :
    t.Shows (.ofTable table) := by
  have htake : t.order.take j = (FlowGraph.ofTable table).order := by
    rw [List.take_of_length_le hj, hall]
  refine ⟨hall, h.reachable.trans (congrArg _ hall), fun b => ?_, fun l => ?_⟩
  · rw [h.preds, htake]
    rfl
  · cases l with
    | negSucc n => rfl
    | ofNat b =>
      show t.index b = ((if b < table.size then some b else none).bind _).elim (-1) Int.ofNat
      by_cases hb : b ∈ (FlowGraph.ofTable table).order
      · obtain ⟨i, hi⟩ := List.getElem?_of_mem hb
        have hlt : b < table.size := by
          obtain ⟨pool, htracks⟩ := h.tracks
          have := htracks.inside b (hall ▸ hb)
          simpa using this
        have hindex := (FlowGraph.index?_eq_some (FlowGraph.nodup_ofTable_order table)).mpr hi
        rw [h.index b i (htake ▸ hi), if_pos hlt, Option.bind_some, hindex]
        rfl
      · have hindex : (FlowGraph.ofTable table).index? b = none := List.idxOf?_eq_none_iff.mpr hb
        rw [h.unvisited b (htake ▸ hb)]
        split
        · rw [Option.bind_some, hindex]
          rfl
        · rfl

/-- The survey of a table that leads to its own blocks, and to none of them twice from one block,
ends with the tables of the graph. -/
theorem exists_shows {table : Array (List BlockId)} (hb : FlowGraph.Bounded table)
    (hsuccs : ∀ a, (table.getD a []).Nodup) (h0 : entry < table.size) :
    ∃ t, of table = some t ∧ t.Shows (.ofTable table) := by
  obtain ⟨t, j, hrun, hall, hj, hfits⟩ := (fits_start h0).run hb hsuccs
    (FlowGraph.nodup_ofTable_order table)
  exact ⟨t, hrun, hfits.shows hall hj⟩

end Survey

end ProcCompiler
