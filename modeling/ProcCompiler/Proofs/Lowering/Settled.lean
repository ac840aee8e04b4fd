import ProcCompiler.Proofs.Lowering.Ready
/-!
# The routine after delivery

`Settled` describes the routine that lowering lays out, in terms of the routine before its joins
were split: which registers came into each block (`into`), that each block was filled with them, and
that the registers of a block are those that its predecessor binds at the end. Nothing waits any
more.

* `Staged.settled`: delivery settles a routine.
* `Settled.known`, `Settled.leads_mem`: every operand is known and every jump leads to a block that
  is reached, so the layout cannot fail.
-/
namespace ProcCompiler

/-- `F` is `f` after its joins were split, its arguments bound and its registers delivered. The
registers `into b` came into the block `b`. -/
structure Settled (f : Routine) (n : Needs) (slots : List Slot) (into : BlockId → Var → Option Reg)
    (f₂ F : Routine) : Prop where
  ready : f.Ready
  split : SplitOf f n f₂
  name : F.name = f.name
  vars : F.vars = f.vars
  size : F.blocks.size = f₂.blocks.size
  regs : F.regs.toList = f.regs.toList ++ (f.sites n).map (fun s => { var := s.var }) ++
    (n.of entry).map fun v => { var := v, slot := slotOf? slots v }
  entryBody : (F.block entry).body = []
  entryExit : (F.block entry).exit = some (.jump f₂.route)
  entryBinding : ∀ v, (F.block entry).binding? v =
    if v ∈ n.of entry then some ((f₂.regs.size + (n.of entry).idxOf v : Nat) : Reg) else none
  old : ∀ b ∈ f.graph.order, b ≠ entry →
    Block.Filled ((f.block b).mapLabel (f.viaLabel n b)) (F.block b) (into b)
  edge : ∀ e ∈ f.edges n, Block.Filled
    (edgeBlock (n.of e.target) ((n.of e.target).map (f.shared n e.target)) e.target)
    (F.block (f.edgeId n e)) (into (f.edgeId n e))
  waits : ∀ b ∈ f₂.graph.order, (F.block b).params = []
  /-- What comes into a block is what each predecessor binds at its end. -/
  flows : ∀ t, ∀ p ∈ f₂.graph.preds t, ∀ v r, into t v = some r → (F.block p).binding? v = some r

namespace Block

/-- A jump reads nothing, so filling leaves it alone. -/
theorem exitRef_eq_jump {b : Block} {l : Label} :
    b.exitRef = some (.jump l) ↔ b.exit = some (.jump l) := by
  unfold exitRef
  cases b.exit with
  | none => simp
  | some e => cases e <;> simp [Exit.mapRead]

/-- Filling leaves the jumps alone. -/
theorem Filled.exitLabels {b b' : Block} {σ : Var → Option Reg} (h : Filled b b' σ) :
    b'.exitLabels = b.exitLabels := by
  have hmap : ∀ c : Block, c.exitRef.map Exit.labels = c.exitLabels := by
    intro c
    simp only [exitRef, Block.exitLabels, Option.map_map]
    congr 1
    funext e
    simp
  rw [← hmap, ← hmap, h.exit, Option.map_map]
  congr 1
  funext e
  simp

theorem Tight.mapLabel {b : Block} (h : b.Tight) (ρ : Label → Label) : (b.mapLabel ρ).Tight where
  body := h.body
  exit e he := by
    simp only [exitRef, Block.mapLabel, Option.map_map, Option.mem_def,
      Option.map_eq_some_iff] at he
    obtain ⟨x, hx, rfl⟩ := he
    have := h.exit (x.mapRead (Operand.ref b.params)) (Option.mem_map_of_mem _ hx)
    cases x <;> exact this

/-- The block of an edge waits for what it moves. -/
theorem tight_edgeBlock {vs : List Var} {shared : List Reg} (hl : shared.length = vs.length)
    (t : BlockId) :
    (edgeBlock vs shared t).Tight where
  body a ha := by
    simp only [bodyRefs, edgeBlock, List.map_map, List.mem_map] at ha
    obtain ⟨⟨r, i⟩, hi, rfl⟩ := ha
    have hlt : i < vs.length := by
      have := List.snd_lt_of_mem_zipIdx hi
      omega
    simp [Action.mapRead, Action.read?, Operand.ref, hlt]
  exit e he := by
    simp only [exitRef, edgeBlock, Option.map_some, Option.mem_def, Option.some.injEq] at he
    subst he
    simp [Exit.mapRead, Exit.read?]

end Block

namespace Staged

variable {f f₂ f₃ F : Routine} {n : Needs} {slots : List Slot} (h : Staged f n slots f₂ f₃)

include h

theorem exists_needs : ∃ n', f₃.needs f₂.graph = .ok n' :=
  h.served.exists_needs fun b _ => h.ready.nonneg b

theorem regs : f₃.regs.toList = f.regs.toList ++ (f.sites n).map (fun s => { var := s.var }) ++
    (n.of entry).map fun v => { var := v, slot := slotOf? slots v } := by
  rw [h.entered.regs, h.split.split.regs]

end Staged

/-- What comes into a block, at the split of the joins or on delivery. -/
def Routine.arrivals (f : Routine) (n : Needs) (into : BlockId → Var → Option Reg) (b : BlockId) :
    Var → Option Reg :=
  if f.graph.IsJoin n b then f.joinInto n b else into b

namespace Staged

variable {f f₂ f₃ F : Routine} {n : Needs} {slots : List Slot} {into : BlockId → Var → Option Reg}
  (h : Staged f n slots f₂ f₃)

include h

theorem edge_not_join {e : Edge} : ¬ f.graph.IsJoin n (f.edgeId n e) := fun hj =>
  absurd (h.split.closed.lt_of_mem_order (h.split.isJoin_mem_order hj))
    (Nat.not_lt.mpr (le_edgeId f n e))

theorem filled_old (hd : Delivered f₃ f₂.graph into F) {b : BlockId} (hb : b ∈ f.graph.order)
    (h0 : b ≠ entry) :
    Block.Filled ((f.block b).mapLabel (f.viaLabel n b)) (F.block b) (f.arrivals n into b) := by
  have hlt := h.split.closed.lt_of_mem_order hb
  have hfill := hd.block b (by rw [h.size]; exact h.split.old_lt hlt)
  unfold Routine.arrivals
  split
  · rename_i hj
    have hnone : into b = fun _ => none := funext fun v =>
      hd.into_eq_none (h.served.not_needed hlt (.inr hj))
    rw [h.block_join hj, hnone] at hfill
    simpa using (h.split.filled_join hj (h.ready.nodup b)).trans hfill
  · rename_i hj
    rwa [h.block_other hlt h0 hj] at hfill

/-- The entry receives nothing. -/
theorem filled_entry (hd : Delivered f₃ f₂.graph into F) :
    Block.Filled (f₃.block entry) (F.block entry) fun _ => none := by
  have hfill := hd.block entry (by rw [h.size]; exact h.split.old_lt h.split.entry_lt)
  rwa [show into entry = fun _ => none from
    funext fun v => hd.into_eq_none (h.deliverable.entry v)] at hfill

/-- Delivery settles the routine. -/
theorem settled (hd : Delivered f₃ f₂.graph into F) :
    Settled f n slots (f.arrivals n into) f₂ F where
  ready := h.ready
  split := h.split
  name := by rw [hd.name, h.entered.name, h.split.split.name]
  vars := by rw [hd.vars, h.entered.vars, h.split.split.vars]
  size := by rw [hd.size, h.size]
  regs := by rw [hd.regs, h.regs]
  entryBody := by
    have hbody := (h.filled_entry hd).body
    rw [Block.bodyRefs, Block.bodyRefs, h.entered.body] at hbody
    exact List.map_eq_nil_iff.mp hbody
  entryExit := by
    have hexit := (h.filled_entry hd).exit
    rw [Block.exitRef_eq_jump.mpr h.entered.exit] at hexit
    exact Block.exitRef_eq_jump.mp hexit
  entryBinding v := by
    rw [(h.filled_entry hd).binding, h.binding?_entry, Option.or_none]
  old _ hb h0 := h.filled_old hd hb h0
  edge e he := by
    have hfill := hd.block (f.edgeId n e) (by rw [h.size]; exact h.split.edgeId_lt he)
    rwa [h.block_edge he, ← show f.arrivals n into (f.edgeId n e) = _ from
      if_neg h.edge_not_join] at hfill
  waits b hb := hd.params h.deliverable hb
  flows t p hp v r hr := by
    unfold Routine.arrivals at hr
    split at hr
    · rename_i hj
      obtain ⟨hv, rfl⟩ : v ∈ n.of t ∧ f.shared n t v = r := by
        unfold Routine.joinInto at hr
        split at hr
        · exact ⟨‹_›, Option.some.inj hr⟩
        · cases hr
      obtain ⟨q, hq, rfl⟩ := (h.split.mem_preds_join hj).mp hp
      have he := h.split.mem_edges (e := ⟨q, t⟩).mpr ⟨hj, hq⟩
      have hfill := (hd.block _ (by rw [h.size]; exact h.split.edgeId_lt he)).binding v
      rw [h.block_edge he, binding?_edgeBlock (h.nodup_of t), if_pos hv] at hfill
      exact hfill
    · have hn : Routine.Needed f₃ f₂.graph t v := by
        by_contra hn
        rw [hd.into_eq_none hn] at hr
        cases hr
      rw [← hd.into_eq h.deliverable hp hn]
      exact hr

end Staged

/-- If the last registers were made for the slots of distinct variables, and no other for any, then
an argument register belongs to one of the variables. -/
theorem Routine.exists_of_slot? {F : Routine} {slots : List Slot} {old : List RegInfo}
    {vs : List Var}
    (hregs : F.regs.toList = old ++ vs.map fun v => { var := v, slot := slotOf? slots v })
    (hplain : ∀ info ∈ old, info.slot = none) (hvs : vs.Nodup) {r : Reg} {i : Nat}
    (hr : F.slot? r = some i) :
    ∃ v ∈ vs, r = ((old.length + vs.idxOf v : Nat) : Reg) ∧ slotOf? slots v = some i ∧
      F.regInfo? r = some { var := v, slot := some i } := by
  obtain ⟨info, hinfo, hi⟩ := Option.bind_eq_some_iff.mp hr
  cases r with
  | negSucc k => cases hinfo
  | ofNat k =>
    have hget : F.regs.toList[k]? = some info := Array.getElem?_toList.trans hinfo
    rw [hregs] at hget
    rcases Nat.lt_or_ge k old.length with hlt | hge
    · rw [List.getElem?_append_left hlt] at hget
      rw [hplain info (List.mem_of_getElem? hget)] at hi
      cases hi
    · rw [List.getElem?_append_right hge, List.getElem?_map] at hget
      obtain ⟨v, hv, rfl⟩ := Option.map_eq_some_iff.mp hget
      have hi : slotOf? slots v = some i := hi
      obtain ⟨hlt, rfl⟩ := List.getElem?_eq_some_iff.mp hv
      refine ⟨_, List.getElem_mem hlt, ?_, hi, by rw [hinfo, hi]⟩
      rw [hvs.idxOf_getElem, Nat.add_sub_cancel' hge]
      rfl

/-- A slot is the first one of one variable at most. -/
theorem slotOf?_inj {slots : List Slot} {v w : Var} {i : Nat} (hv : slotOf? slots v = some i)
    (hw : slotOf? slots w = some i) : v = w := by
  obtain ⟨s, hs, rfl⟩ := slotOf?_eq_some hv
  obtain ⟨t, ht, rfl⟩ := slotOf?_eq_some hw
  cases hs.symm.trans ht
  rfl

namespace Settled

variable {f f₂ F : Routine} {n : Needs} {slots : List Slot} {into : BlockId → Var → Option Reg}
  (h : Settled f n slots into f₂ F)

include h

/-- The blocks that are reached: the entry, old blocks and edges. -/
theorem kinds {b : BlockId} (hb : b ∈ f₂.graph.order) :
    b = entry ∨ (b ∈ f.graph.order ∧ b ≠ entry) ∨ ∃ e ∈ f.edges n, b = f.edgeId n e := by
  rcases h.split.old_or_edge (h.split.closed'.lt_of_mem_order hb) with ho | he
  · by_cases h0 : b = entry
    · exact .inl h0
    · exact .inr (.inl ⟨(h.split.mem_order_old ho).mp hb, h0⟩)
  · exact .inr (.inr he)

/-- The register of a variable that the entry needs. -/
theorem regs_entry {v : Var} (hv : v ∈ n.of entry) :
    F.regs.toList[f₂.regs.size + (n.of entry).idxOf v]? =
    some { var := v, slot := slotOf? slots v } := by
  have hlt := List.idxOf_lt_length_iff.mpr hv
  rw [h.regs, List.getElem?_append_right (by simp [h.split.split.regs_size]),
    h.split.split.regs_size]
  simp [List.getElem?_eq_getElem hlt]

theorem slot?_entry {v : Var} (hv : v ∈ n.of entry) :
    F.slot? ((f₂.regs.size + (n.of entry).idxOf v : Nat) : Reg) = slotOf? slots v := by
  show (F.regs[f₂.regs.size + (n.of entry).idxOf v]?).bind (·.slot) = _
  rw [← Array.getElem?_toList, h.regs_entry hv]
  rfl

/-- An argument register belongs to a variable that the entry needs, and stands for its slot. -/
theorem exists_of_slot? {r : Reg} {i : Nat} (hr : F.slot? r = some i) : ∃ v ∈ n.of entry,
    r = ((f₂.regs.size + (n.of entry).idxOf v : Nat) : Reg) ∧ slotOf? slots v = some i := by
  have hsize : (f.regs.toList ++ (f.sites n).map fun s => ({ var := s.var } : RegInfo)).length =
      f₂.regs.size := by
    simp [h.split.split.regs_size]
  have hplain : ∀ info ∈ f.regs.toList ++ (f.sites n).map (fun s => ({ var := s.var } : RegInfo)),
      info.slot = none := by
    intro info hm
    rcases List.mem_append.mp hm with hm | hm
    · exact h.ready.plain info hm
    · obtain ⟨s, -, rfl⟩ := List.mem_map.mp hm
      rfl
  obtain ⟨v, hv, hrv, hi, -⟩ := Routine.exists_of_slot? h.regs hplain
    (Needs.nodup_of (Routine.nodup_sites h.split.needs) entry) hr
  exact ⟨v, hv, hsize ▸ hrv, hi⟩

/-- No two registers stand for one slot. -/
theorem slot_inj {r r' : Reg} {i : Nat} (hr : F.slot? r = some i) (hr' : F.slot? r' = some i) :
    r = r' := by
  obtain ⟨v, -, rfl, hi⟩ := h.exists_of_slot? hr
  obtain ⟨w, -, rfl, hj⟩ := h.exists_of_slot? hr'
  rw [slotOf?_inj hi hj]

/-- Every operand is known. -/
theorem known {b : BlockId} (hb : b ∈ f₂.graph.order) : (F.block b).Known := by
  refine Block.Tight.known ?_ (h.waits b hb)
  rcases h.kinds hb with rfl | ⟨ho, h0⟩ | ⟨e, he, rfl⟩
  · exact Block.tight_jump h.entryBody h.entryExit
  · exact (h.old b ho h0).tight ((h.ready.tight b).mapLabel _)
  · exact (h.edge e he).tight (Block.tight_edgeBlock (by simp) _)

/-- Every reached block has an exit, and its jumps are those of the graph. -/
theorem exit_leads {b : BlockId} (hb : b ∈ f₂.graph.order) :
    ∃ e, (F.block b).exit = some e ∧ e.labels = f₂.leads b := by
  have key : ∀ ls, (F.block b).exitLabels = some ls → f₂.leads b = ls →
      ∃ e, (F.block b).exit = some e ∧ e.labels = f₂.leads b := by
    intro ls hls hl
    obtain ⟨e, he, hel⟩ := Option.map_eq_some_iff.mp hls
    exact ⟨e, he, hel.trans hl.symm⟩
  rcases h.kinds hb with rfl | ⟨ho, h0⟩ | ⟨e, he, rfl⟩
  · refine ⟨_, h.entryExit, ?_⟩
    rw [Routine.leads_eq, h.split.block_other h.split.entry_lt h.split.entry_not_join]
    simp [Block.exitLabels, Block.mapLabel, h.ready.bare.isOpen, Exit.labels]
  · have hlt := h.split.closed.lt_of_mem_order ho
    have hx : (F.block b).exitLabels = (f₂.block b).exitLabels := by
      rw [(h.old b ho h0).exitLabels, h.split.exitLabels_old hlt]
    have hc : ((f₂.block b).exit).isSome := by
      have := h.split.closed'.complete b (h.split.old_lt hlt) h0
      exact this
    obtain ⟨x, hx'⟩ := Option.isSome_iff_exists.mp hc
    refine key x.labels ?_ ?_
    · rw [hx, Block.exitLabels, hx']; rfl
    · rw [Routine.leads, hx']
  · refine key [(e.target : Label)] ?_ (h.split.leads_edge he)
    rw [(h.edge e he).exitLabels]
    rfl

/-- Every jump leads to a block that is reached. -/
theorem leads_mem {b : BlockId} (hb : b ∈ f₂.graph.order) {l : Label} (hl : l ∈ f₂.leads b) :
    ∃ t ∈ f₂.graph.order, l = t := by
  obtain ⟨t, ht, -, ho, -⟩ := h.split.closed'.exists_succ hb hl
  exact ⟨t, ho, ht⟩

end Settled

end ProcCompiler
