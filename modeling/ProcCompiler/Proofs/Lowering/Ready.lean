import ProcCompiler.Lowering
import ProcCompiler.Proofs.Lowering.Arguments
import ProcCompiler.Proofs.Lowering.Delivery
import ProcCompiler.Proofs.Lowering.SingleExit
import ProcCompiler.Proofs.Lowering.SplitNeeds
/-!
# From a ready routine to delivery

A routine is ready if it is closed, its entry is untouched and its blocks are in order. Adding the
exit keeps it ready. Once the joins are split and the arguments bound (`Staged`), only blocks with
one predecessor need anything, and the entry and the joins bind what they needed: delivery can
start.

* `Ready`: what lowering asks of a routine.
* `Staged.served`: the entry and the joins wait for nothing and bind what they needed.
* `Staged.deliverable`, `Staged.checkNeeds_ok`: delivery can start.
-/
namespace ProcCompiler

/-- A closed routine with an untouched entry and no argument registers yet, whose blocks wait for
each variable once and read only what they wait for or know. -/
structure Routine.Ready (f : Routine) : Prop where
  closed : f.Closed
  bare : (f.block entry).Bare
  unbound : ∀ v, (f.block entry).binding? v = none
  nodup : ∀ b, (f.block b).params.Nodup
  nonneg : ∀ b, ∀ v ∈ (f.block b).params, 0 ≤ v
  tight : ∀ b, (f.block b).Tight
  plain : ∀ info ∈ f.regs.toList, info.slot = none

namespace Block

theorem tight_ret : Tight { exit := some .ret } where
  body _ ha := by cases ha
  exit _ he := by cases he; simp [Exit.mapRead, Exit.read?]

/-- A block that does nothing but jump reads nothing. -/
theorem tight_jump {b : Block} {l : Label} (hbody : b.body = []) (hexit : b.exit = some (.jump l)) :
    b.Tight where
  body a ha := by
    rw [bodyRefs, hbody] at ha
    cases ha
  exit e he := by
    rw [exitRef, hexit] at he
    cases he
    simp [Exit.mapRead, Exit.read?]

theorem Tight.redirectReturn {b : Block} (h : b.Tight) (x : BlockId) :
    (b.redirectReturn x).Tight := by
  by_cases hr : b.exit = some .ret
  · refine ⟨by simpa [bodyRefs] using h.body, fun e he => ?_⟩
    rw [exitRef, exit_redirectReturn_ret hr] at he
    cases he
    simp [Exit.mapRead, Exit.read?]
  · rw [redirectReturn_of_ne hr]; exact h

end Block

namespace Routine

/-- The blocks of the routine with an exit: the old ones, the exit, nothing. -/
theorem block_addExit_cases (f : Routine) (g : FlowGraph) (b : BlockId) :
    ((f.addExit g).1.block b = f.block b ∨
        (f.addExit g).1.block b = (f.block b).redirectReturn f.blocks.size) ∨
      (f.addExit g).1.block b = { exit := some .ret } := by
  rcases Nat.lt_trichotomy b f.blocks.size with hb | rfl | hb
  · rw [block_addExit hb]
    split
    · exact .inl (.inr rfl)
    · exact .inl (.inl rfl)
  · exact .inr block_addExit_exit
  · refine .inl (.inl ?_)
    rw [block_of_le (Nat.le_of_lt hb), block_of_le (by rw [size_addExit]; exact hb)]

/-- A ready routine is ready with its exit. -/
theorem Ready.addExit {f : Routine} (h : f.Ready) : (f.addExit f.graph).1.Ready where
  closed := h.closed.addExit
  bare := by
    have h0 : entry < f.blocks.size := Nat.lt_of_lt_of_le Nat.zero_lt_two h.closed.body
    rw [block_addExit h0, if_pos h.closed.entry_mem_order,
      Block.redirectReturn_of_ne (by rw [h.bare.isOpen]; simp)]
    exact h.bare
  unbound v := by
    have h0 : entry < f.blocks.size := Nat.lt_of_lt_of_le Nat.zero_lt_two h.closed.body
    rw [binding?_addExit h0]; exact h.unbound v
  nodup b := by
    rcases f.block_addExit_cases f.graph b with (hb | hb) | hb <;> rw [hb]
    · exact h.nodup b
    · simpa using h.nodup b
    · exact List.nodup_nil
  nonneg b v hv := by
    rcases f.block_addExit_cases f.graph b with (hb | hb) | hb <;> rw [hb] at hv
    · exact h.nonneg b v hv
    · exact h.nonneg b v (by simpa using hv)
    · cases hv
  tight b := by
    rcases f.block_addExit_cases f.graph b with (hb | hb) | hb <;> rw [hb]
    · exact h.tight b
    · exact (h.tight b).redirectReturn _
    · exact Block.tight_ret
  plain info hi := h.plain info (by simpa using hi)

/-- The entry goes on to the route. -/
theorem Ready.route_mem_succs {f : Routine} (h : f.Ready) : f.route ∈ f.graph.succs entry :=
  h.closed.mem_succs.mpr ⟨Nat.lt_of_lt_of_le Nat.zero_lt_two h.closed.body, by
    rw [leads, h.bare.isOpen]; exact List.mem_singleton.mpr rfl⟩

theorem Ready.route_mem_order {f : Routine} (h : f.Ready) : f.route ∈ f.graph.order :=
  h.closed.succ_mem_order h.closed.entry_mem_order h.route_mem_succs

theorem Ready.route_ne_entry {f : Routine} (h : f.Ready) : f.route ≠ entry :=
  (h.closed.succ_mem h.route_mem_succs).1

end Routine

/-- The routine `f` with its joins split (`f₂`) and its arguments bound (`f₃`). -/
structure Staged (f : Routine) (n : Needs) (slots : List Slot) (f₂ f₃ : Routine) : Prop where
  ready : f.Ready
  split : SplitOf f n f₂
  entered : Entered f₂ slots (n.of entry) f₃

theorem Routine.checkBound_ok {f : Routine} {b : BlockId} {vs : List Var}
    (hv : ∀ v ∈ vs, (f.block b).binding? v ≠ none) :
    f.checkBound b vs = .ok () := by
  have : vs.find? (fun v => ((f.block b).binding? v).isNone) = none := by
    rw [List.find?_eq_none]
    intro v hm
    simpa using hv v hm
  unfold Routine.checkBound
  rw [this]

namespace Staged

variable {f f₂ f₃ : Routine} {n : Needs} {slots : List Slot} (h : Staged f n slots f₂ f₃)

include h

/-! ## The blocks -/

theorem nodup_of (b : BlockId) : (n.of b).Nodup :=
  Needs.nodup_of (Routine.nodup_sites h.split.needs) b

theorem size : f₃.blocks.size = f₂.blocks.size := h.entered.size

theorem binding?_entry (v : Var) : (f₃.block entry).binding? v =
    if v ∈ n.of entry then some ((f₂.regs.size + (n.of entry).idxOf v : Nat) : Reg) else none := by
  rw [h.entered.binding, h.split.block_other h.split.entry_lt h.split.entry_not_join]
  split
  · rfl
  · exact h.ready.unbound v

theorem block_join {b : BlockId} (hj : f.graph.IsJoin n b) : f₃.block b = f₂.block b :=
  h.entered.other b fun e => h.split.entry_not_join (e ▸ hj)

theorem block_other {b : BlockId} (hb : b < f.blocks.size) (h0 : b ≠ entry)
    (hj : ¬ f.graph.IsJoin n b) :
    f₃.block b = (f.block b).mapLabel (f.viaLabel n b) := by
  rw [h.entered.other b h0, h.split.block_other hb hj]

theorem block_edge {e : Edge} (he : e ∈ f.edges n) : f₃.block (f.edgeId n e) =
    edgeBlock (n.of e.target) ((n.of e.target).map (f.shared n e.target)) e.target := by
  rw [h.entered.other _ (Nat.ne_of_gt (Nat.lt_of_lt_of_le h.split.entry_lt (le_edgeId f n e))),
    h.split.block_edge he]

/-- The blocks, by what became of them. -/
theorem kinds {b : BlockId} (hb : b < f₂.blocks.size) :
    b = entry ∨ f.graph.IsJoin n b ∨ (b < f.blocks.size ∧ b ≠ entry ∧ ¬ f.graph.IsJoin n b) ∨
      ∃ e ∈ f.edges n, b = f.edgeId n e := by
  rcases h.split.old_or_edge hb with ho | he
  · by_cases h0 : b = entry
    · exact .inl h0
    · by_cases hj : f.graph.IsJoin n b
      · exact .inr (.inl hj)
      · exact .inr (.inr (.inl ⟨ho, h0, hj⟩))
  · exact .inr (.inr (.inr he))

theorem nodup_params (b : BlockId) : (f₃.block b).params.Nodup := by
  by_cases hb : b < f₂.blocks.size
  · rcases h.kinds hb with rfl | hj | ⟨hlt, h0, hj⟩ | ⟨e, he, rfl⟩
    · rw [h.entered.params]; exact List.nodup_nil
    · rw [h.block_join hj, h.split.params_join hj (h.ready.nodup b)]; exact List.nodup_nil
    · rw [h.block_other hlt h0 hj]; exact h.ready.nodup b
    · rw [h.block_edge he]; exact h.nodup_of e.target
  · rw [Routine.block_of_le (by rw [h.size]; exact Nat.le_of_not_lt hb)]
    exact List.nodup_nil

/-! ## Delivery can start -/

/-- The entry and the joins are served. -/
theorem served : Served f n f₂ f₃ fun b => b = entry ∨ f.graph.IsJoin n b where
  split := h.split
  join _ hj := .inr hj
  only _ hs := hs
  params b hb := by
    rcases hb with rfl | hj
    · exact h.entered.params
    · rw [h.block_join hj]
      exact h.split.params_join hj (h.ready.nodup b)
  bound b hb v hv := by
    rcases hb with rfl | hj
    · rw [h.binding?_entry, if_pos hv]
      simp
    · rw [h.block_join hj]
      exact h.split.binding?_join_ne_none hj (h.ready.nodup b) hv
  kept b hb v hfree := by
    rcases hb with rfl | hj
    · exact h.ready.unbound v
    · rw [h.block_join hj, h.split.binding?_join hj (h.ready.nodup b),
        Option.or_eq_none_iff] at hfree
      exact hfree.1
  other b hb hs := ⟨_, h.block_other hb (fun h0 => hs (.inl h0)) fun hj => hs (.inr hj)⟩
  edge _ he := h.block_edge he

theorem deliverable : Routine.Deliverable f₃ f₂.graph where
  order b := h.split.closed'.mem_order
  bounded b hb := by rw [h.size]; exact h.split.closed'.lt_of_mem_order hb
  single b v hn := h.served.preds_unique hn
  entry v := h.served.not_needed h.split.entry_lt (.inl rfl)
  nodup := h.nodup_params

/-- The entry and the joins bind what they needed. -/
theorem checkNeeds_ok : f₃.checkNeeds f₂.graph n = .ok () := by
  apply forM_eq_ok
  intro b hb
  simp only [Routine.checkBlock]
  split
  · rfl
  · rename_i hne
    split
    · rename_i h0
      subst h0
      rw [if_pos h.split.closed'.preds_entry]
      exact Routine.checkBound_ok (h.served.bound entry (.inl rfl))
    · rename_i h0
      split
      · rename_i hlen
        have hlt : b < f.blocks.size := by
          obtain ⟨v, hv⟩ := List.exists_mem_of_ne_nil _ hne
          exact h.split.closed.lt_of_mem_order ((Routine.mem_of_iff h.split.needs).mp hv).mem_order
        have hj : f.graph.IsJoin n b := by
          by_contra hj
          exact absurd (h.split.length_preds_other hlt hj hne) (Nat.not_lt.mpr hlen)
        rw [if_pos (h.served.params b (.inr hj))]
        exact Routine.checkBound_ok (h.served.bound b (.inr hj))
      · rfl

end Staged

end ProcCompiler
