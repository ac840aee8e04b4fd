import ProcCompiler.Lowering.Joins
import ProcCompiler.Proofs.Block.Receive
import ProcCompiler.Proofs.Graph.Analyze
import ProcCompiler.Proofs.Graph.Needs
/-!
# What splitting joins does

`Split f n es sites joined f'` describes the routine `f'` in the middle of the pass, in terms of `f`
alone: the edges `es` have their blocks, in that order after the blocks of `f`; the `sites` have
their shared registers, in that order after the registers of `f`; the blocks `joined` have received
theirs. A jump along a split edge leads to the edge's block, every other jump is as before.

* `Split.share`, `Split.edge`, `Split.join`: the three steps of the pass.
* `splitJoins_spec`: the pass never stops, and splits the edges into all joins.
-/
namespace ProcCompiler

/-- A jump from one block to another. -/
structure Edge where
  source : BlockId
  target : BlockId
deriving DecidableEq

namespace Exit

variable {ρ ℓ ℓ' ℓ'' : Type}

theorem mapLabel_mapLabel (f : ℓ → ℓ') (g : ℓ' → ℓ'') (e : Exit ρ ℓ) :
    (e.mapLabel f).mapLabel g = e.mapLabel (g ∘ f) := by
  cases e <;> rfl

theorem mapLabel_id (e : Exit ρ ℓ) : e.mapLabel id = e := by
  cases e <;> rfl

end Exit

namespace Block

/-- The jumps change by `ρ`. -/
def mapLabel (b : Block) (ρ : Label → Label) : Block := { b with exit := b.exit.map (·.mapLabel ρ) }

theorem mapLabel_mapLabel (b : Block) (ρ τ : Label → Label) :
    (b.mapLabel ρ).mapLabel τ = b.mapLabel (τ ∘ ρ) := by
  simp only [mapLabel, Option.map_map]
  congr 2
  funext e
  exact Exit.mapLabel_mapLabel ρ τ e

theorem mapLabel_id (b : Block) : b.mapLabel id = b := by
  have : (fun e : Exit Operand Label => e.mapLabel id) = id := funext Exit.mapLabel_id
  simp [mapLabel, this]

theorem mapLabel_of_open {b : Block} (h : b.isComplete = false) (ρ : Label → Label) :
    b.mapLabel ρ = b := by
  cases b with
  | mk params body exit bindings =>
    cases exit with
    | none => rfl
    | some e => cases h

theorem retarget_eq (b : Block) (old new : Label) :
    b.retarget old new = b.mapLabel fun l => if l = old then new else l := rfl

theorem receive_mapLabel (b : Block) (ρ : Label → Label) (v : Var) (r : Reg) :
    (b.mapLabel ρ).receive v r = (b.receive v r).mapLabel ρ := by
  unfold receive fill mapLabel
  cases b.params.idxOf? v with
  | none => rfl
  | some i =>
    cases h : b.exit with
    | none => simp [mapRead, h]
    | some e => cases e <;> simp [mapRead, h, Exit.mapLabel, Exit.mapRead]

theorem receiveAll_mapLabel (ρ : Label → Label) :
    ∀ (arrivals : List (Var × Reg)) (b : Block),
      (b.mapLabel ρ).receiveAll arrivals = (b.receiveAll arrivals).mapLabel ρ
  | [], _ => rfl
  | (v, r) :: arrivals, b => by
    show ((b.mapLabel ρ).receive v r).receiveAll arrivals = _
    rw [receive_mapLabel, receiveAll_mapLabel ρ arrivals]
    rfl

@[simp] theorem isComplete_receiveAll :
    ∀ (arrivals : List (Var × Reg)) (b : Block), (b.receiveAll arrivals).isComplete = b.isComplete
  | [], _ => rfl
  | (v, r) :: arrivals, b => by
    show ((b.receive v r).receiveAll arrivals).isComplete = _
    rw [isComplete_receiveAll arrivals]
    simp only [receive, fill, isComplete, mapRead]
    split <;> simp

@[simp] theorem isComplete_mapLabel (b : Block) (ρ : Label → Label) :
    (b.mapLabel ρ).isComplete = b.isComplete := by
  simp [isComplete, mapLabel]

end Block

/-- A block that needs something and has several predecessors. -/
def FlowGraph.IsJoin (g : FlowGraph) (n : Needs) (t : BlockId) : Prop :=
  2 ≤ (g.preds t).length ∧ n.of t ≠ []

instance (g : FlowGraph) (n : Needs) : DecidablePred (g.IsJoin n) := fun t =>
  inferInstanceAs (Decidable (2 ≤ (g.preds t).length ∧ n.of t ≠ []))

/-- The edges into the joins among `ts`. -/
def FlowGraph.joinEdges (g : FlowGraph) (n : Needs) (ts : List BlockId) : List Edge :=
  ts.flatMap fun t => if g.IsJoin n t then (g.preds t).map fun p => ⟨p, t⟩ else []

/-- What the joins among `ts` need. -/
def FlowGraph.joinSites (g : FlowGraph) (n : Needs) (ts : List BlockId) : List Site :=
  ts.flatMap fun t => if g.IsJoin n t then (n.of t).map fun v => ⟨t, v⟩ else []

/-- The number of the split edge along which `b` jumps to `l`. -/
def splitIndex? (es : List Edge) (b : BlockId) (l : Label) : Option Nat :=
  es.findIdx? fun e => e.source = b ∧ (e.target : Label) = l

/-- A jump of `b` to `l` leads to the edge's block if the edge is split; the blocks of the edges
stand after `base` others. -/
def reroute (base : Nat) (es : List Edge) (b : BlockId) (l : Label) : Label :=
  match splitIndex? es b l with
  | some i => ((base + i : Nat) : Label)
  | none => l

/-- The register shared for a variable of a join; those of the sites stand after `base` others. -/
def sharedReg (base : Nat) (sites : List Site) (t : BlockId) (v : Var) : Reg :=
  ((base + sites.idxOf ⟨t, v⟩ : Nat) : Reg)

/-- What arrives in a join. -/
def sharedArrivals (base : Nat) (n : Needs) (sites : List Site) (t : BlockId) : List (Var × Reg) :=
  (n.of t).zip ((n.of t).map (sharedReg base sites t))

/-- The routine with some edges split; see the head of the module. -/
structure Split (f : Routine) (n : Needs) (es : List Edge) (sites : List Site)
    (joined : List BlockId) (f' : Routine) : Prop where
  name : f'.name = f.name
  vars : f'.vars = f.vars
  size : f'.blocks.size = f.blocks.size + es.length
  regs : f'.regs.toList = f.regs.toList ++ sites.map fun s => { var := s.var }
  route : (f'.route : Label) =
    if (f.block entry).isComplete then (f.route : Label) else reroute f.blocks.size es entry f.route
  old : ∀ b < f.blocks.size, f'.block b =
    (if b ∈ joined then (f.block b).receiveAll (sharedArrivals f.regs.size n sites b)
      else f.block b).mapLabel (reroute f.blocks.size es b)
  new : ∀ (i : Nat) e, es[i]? = some e → f'.block (f.blocks.size + i) =
    edgeBlock (n.of e.target) ((n.of e.target).map (sharedReg f.regs.size sites e.target)) e.target
  sited : ∀ t, (t ∈ joined ∨ ∃ e ∈ es, e.target = t) → ∀ v ∈ n.of t, ⟨t, v⟩ ∈ sites

theorem reroute_nil (base : Nat) (b : BlockId) : reroute base [] b = id := rfl

theorem split_refl (f : Routine) (n : Needs) : Split f n [] [] [] f where
  name := rfl
  vars := rfl
  size := rfl
  regs := by simp
  route := by simp [reroute_nil]
  old b _ := by simp [reroute_nil, Block.mapLabel_id]
  new i e h := by simp at h
  sited t h := by simp at h

/-! ## Shared registers -/

theorem sharedReg_append {base : Nat} {sites more : List Site} {t : BlockId} {v : Var}
    (h : ⟨t, v⟩ ∈ sites) : sharedReg base (sites ++ more) t v = sharedReg base sites t v := by
  unfold sharedReg
  rw [List.idxOf_append_of_mem h]

theorem shareRegs_fst (f : Routine) (vars : List Var) :
    (f.shareRegs vars).1 =
      { f with regs := f.regs ++ (vars.map fun v => { var := v }).toArray } := by
  unfold Routine.shareRegs
  refine foldl_inv _ (fun done (g : Routine) =>
    g = { f with regs := f.regs ++ (done.map fun v => { var := v }).toArray }) _ _ ?_ ?_
  · simp
  · rintro done v rest g - rfl
    simp [Routine.pushReg]

/-- The registers handed out for a join are the shared ones of its sites. -/
theorem shareRegs_snd {f' : Routine} {base : Nat} {sites : List Site} {t : BlockId}
    {vars : List Var} (hsize : f'.regs.size = base + sites.length) (hfresh : ∀ v, ⟨t, v⟩ ∉ sites)
    (hn : vars.Nodup) :
    (f'.shareRegs vars).2 = vars.map (sharedReg base (sites ++ vars.map fun v => ⟨t, v⟩) t) := by
  apply List.ext_getElem
  · simp [Routine.shareRegs]
  · intro i h₁ h₂
    simp only [Routine.shareRegs, List.length_map, List.length_range] at h₁
    have hd : (vars.map fun v => (⟨t, v⟩ : Site)).Nodup :=
      hn.map fun v w h => (Site.mk.inj h).2
    have hi : (vars.map fun v => (⟨t, v⟩ : Site)).idxOf ⟨t, vars[i]⟩ = i := by
      have hlt : i < (vars.map fun v => (⟨t, v⟩ : Site)).length := by simpa using h₁
      have := hd.idxOf_getElem i hlt
      rwa [List.getElem_map] at this
    simp only [Routine.shareRegs, List.getElem_map, List.getElem_range, sharedReg]
    rw [List.idxOf_append_of_notMem (hfresh _), hi, hsize, Nat.add_assoc]

theorem Split.regs_size {f f' : Routine} {n : Needs} {es : List Edge} {sites : List Site}
    {joined : List BlockId} (h : Split f n es sites joined f') :
    f'.regs.size = f.regs.size + sites.length := by
  have := congrArg List.length h.regs
  simpa using this

/-- The registers of a join are handed out. -/
theorem Split.share {f f' : Routine} {n : Needs} {es : List Edge} {sites : List Site}
    {joined : List BlockId} (h : Split f n es sites joined f') {t : BlockId} :
    Split f n es (sites ++ (n.of t).map fun v => ⟨t, v⟩) joined (f'.shareRegs (n.of t)).1 := by
  have hkeep : ∀ u, (u ∈ joined ∨ ∃ e ∈ es, e.target = u) →
      (n.of u).map (sharedReg f.regs.size (sites ++ (n.of t).map fun v => ⟨t, v⟩) u) =
        (n.of u).map (sharedReg f.regs.size sites u) := by
    intro u hu
    exact List.map_congr_left fun v hv => sharedReg_append (h.sited u hu v hv)
  rw [shareRegs_fst]
  refine ⟨h.name, h.vars, h.size, ?_, h.route, ?_, ?_, ?_⟩
  · simp [h.regs, Function.comp_def]
  · intro b hb
    show f'.block b = _
    rw [h.old b hb]
    by_cases hj : b ∈ joined
    · simp only [if_pos hj, sharedArrivals, hkeep b (.inl hj)]
    · simp only [if_neg hj]
  · intro i e he
    show f'.block _ = _
    rw [h.new i e he, hkeep _ (.inr ⟨e, List.mem_of_getElem? he, rfl⟩)]
  · intro u hu v hv
    exact List.mem_append_left _ (h.sited u hu v hv)

/-! ## One edge -/

theorem splitIndex?_append (es : List Edge) (e : Edge) (b : BlockId) (l : Label) :
    splitIndex? (es ++ [e]) b l =
      (splitIndex? es b l).or (if e.source = b ∧ (e.target : Label) = l then some es.length
        else none) := by
  unfold splitIndex?
  rw [List.findIdx?_append, List.findIdx?_singleton]
  by_cases h : e.source = b ∧ (e.target : Label) = l
  · simp [h]
  · simp [h]

theorem splitIndex?_natCast (es : List Edge) (b t : BlockId) :
    splitIndex? es b (t : Label) = es.idxOf? ⟨b, t⟩ := by
  unfold splitIndex? List.idxOf?
  congr 1
  funext e
  rw [Bool.eq_iff_iff, decide_eq_true_eq, beq_iff_eq]
  constructor
  · rintro ⟨hs, ht⟩
    cases e
    cases hs
    cases Int.ofNat.inj ht
    rfl
  · rintro rfl
    exact ⟨rfl, rfl⟩

theorem splitIndex?_of_not_mem {es : List Edge} {b t : BlockId} (h : (⟨b, t⟩ : Edge) ∉ es) :
    splitIndex? es b (t : Label) = none := by
  rw [splitIndex?_natCast, List.idxOf?_eq_none_iff]
  exact h

theorem reroute_of_not_mem {base : Nat} {es : List Edge} {b t : BlockId}
    (h : (⟨b, t⟩ : Edge) ∉ es) :
    reroute base es b (t : Label) = t := by
  unfold reroute
  rw [splitIndex?_of_not_mem h]

theorem reroute_append_ne {base : Nat} {es : List Edge} {e : Edge} {b : BlockId}
    (hb : b ≠ e.source) :
    reroute base (es ++ [e]) b = reroute base es b := by
  funext l
  have : ¬ (e.source = b ∧ (e.target : Label) = l) := fun h => hb h.1.symm
  unfold reroute
  rw [splitIndex?_append, if_neg this, Option.or_none]

/-- Splitting one more edge is sending its jump to a new block. -/
theorem reroute_append {base : Nat} {es : List Edge} {e : Edge} (he : e ∉ es)
    (ht : e.target < base) :
    (fun l => if l = (e.target : Label) then ((base + es.length : Nat) : Label) else l) ∘
      reroute base es e.source = reroute base (es ++ [e]) e.source := by
  funext l
  simp only [Function.comp]
  by_cases hl : l = (e.target : Label)
  · subst hl
    rw [reroute_of_not_mem he, if_pos rfl]
    unfold reroute
    rw [splitIndex?_append, splitIndex?_of_not_mem he, if_pos ⟨rfl, rfl⟩]
    rfl
  · have hne : ¬ (e.source = e.source ∧ (e.target : Label) = l) := fun h => hl h.2.symm
    have hsame : reroute base (es ++ [e]) e.source l = reroute base es e.source l := by
      unfold reroute
      rw [splitIndex?_append, if_neg hne, Option.or_none]
    rw [hsame]
    apply if_neg
    unfold reroute
    split
    · rename_i i _
      intro heq
      have : base + i = e.target := Int.ofNat.inj heq
      exact absurd (this ▸ ht) (Nat.not_lt.mpr (Nat.le_add_right base i))
    · exact hl

theorem Split.isComplete_entry {f f' : Routine} {n : Needs} {es : List Edge} {sites : List Site}
    {joined : List BlockId} (h : Split f n es sites joined f') (h0 : entry < f.blocks.size) :
    (f'.block entry).isComplete = (f.block entry).isComplete := by
  rw [h.old entry h0]
  split <;> simp

section OneEdge

variable {f f' : Routine} {n : Needs} {es : List Edge} {sites : List Site} {joined : List BlockId}

/-- The new block alone, before its jumper is redirected. -/
theorem Split.block_push (h : Split f n es sites joined f') (x : Block) {b : BlockId}
    (hb : b < f.blocks.size + es.length) : (f'.pushBlock x).block b = f'.block b :=
  Routine.block_pushBlock_ne (by rw [h.size]; exact Nat.ne_of_lt hb) x

/-- The old blocks after the edge `e` is split too, if its jumper is redirected in `f''`. -/
theorem Split.old_redirected (h : Split f n es sites joined f') {f'' : Routine} {e : Edge}
    (he : e ∉ es) (ht : e.target < f.blocks.size)
    (hsrc : f''.block e.source =
      (f'.block e.source).retarget e.target ((f.blocks.size + es.length : Nat) : Label))
    (hother : ∀ b < f.blocks.size, b ≠ e.source → f''.block b = f'.block b) :
    ∀ b < f.blocks.size, f''.block b =
      (if b ∈ joined then (f.block b).receiveAll (sharedArrivals f.regs.size n sites b)
        else f.block b).mapLabel (reroute f.blocks.size (es ++ [e]) b) := by
  intro b hb
  by_cases hbs : b = e.source
  · subst hbs
    rw [hsrc, h.old _ hb, Block.retarget_eq, Block.mapLabel_mapLabel, reroute_append he ht]
  · rw [hother b hb hbs, h.old b hb, reroute_append_ne hbs]

theorem Split.new_pushed {f'' : Routine} {e : Edge}
    (hlast : f''.block (f.blocks.size + es.length) =
      edgeBlock (n.of e.target)
      ((n.of e.target).map (sharedReg f.regs.size sites e.target)) e.target)
    (hprev : ∀ (i : Nat) x, es[i]? = some x → f''.block (f.blocks.size + i) =
      edgeBlock (n.of x.target)
      ((n.of x.target).map (sharedReg f.regs.size sites x.target)) x.target) :
    ∀ (i : Nat) x, (es ++ [e])[i]? = some x → f''.block (f.blocks.size + i) =
      edgeBlock (n.of x.target)
        ((n.of x.target).map (sharedReg f.regs.size sites x.target)) x.target := by
  intro i x hx
  rw [List.getElem?_append] at hx
  split at hx
  · exact hprev i x hx
  · rw [List.getElem?_singleton] at hx
    split at hx
    · cases hx
      rwa [show i = es.length by omega]
    · cases hx

theorem Split.sited_append (h : Split f n es sites joined f') {e : Edge}
    (hsited : ∀ v ∈ n.of e.target, ⟨e.target, v⟩ ∈ sites) (t : BlockId)
    (ht : t ∈ joined ∨ ∃ x ∈ es ++ [e], x.target = t) : ∀ v ∈ n.of t, ⟨t, v⟩ ∈ sites := by
  rcases ht with ht | ⟨x, hx, rfl⟩
  · exact h.sited t (.inl ht)
  · rcases List.mem_append.mp hx with hx | hx
    · exact h.sited _ (.inr ⟨x, hx, rfl⟩)
    · rw [List.mem_singleton.mp hx]; exact hsited

/-- One more edge is split. -/
theorem Split.edge (h : Split f n es sites joined f') {e : Edge} (edges : List BlockId)
    (he : e ∉ es) (hs : e.source < f.blocks.size) (ht : e.target < f.blocks.size)
    (hsited : ∀ v ∈ n.of e.target, ⟨e.target, v⟩ ∈ sites)
    (hroute : e.source = entry → (f.block entry).isComplete = false → f.route = e.target) :
    ∃ f'', Routine.splitEdge (n.of e.target)
      ((n.of e.target).map (sharedReg f.regs.size sites e.target))
        e.target (f', edges) e.source = .ok (f'', edges ++ [f.blocks.size + es.length]) ∧
      Split f n (es ++ [e]) sites joined f'' := by
  have h0 : entry < f.blocks.size := Nat.lt_of_le_of_lt (Nat.zero_le _) hs
  generalize hx : edgeBlock (n.of e.target)
    ((n.of e.target).map (sharedReg f.regs.size sites e.target)) e.target = x
  have hold : ∀ b < f.blocks.size, (f'.pushBlock x).block b = f'.block b := fun b hb =>
    h.block_push x (Nat.lt_add_right _ hb)
  have hlast : (f'.pushBlock x).block (f.blocks.size + es.length) = x := by
    rw [← h.size]; exact Routine.block_pushBlock_self f' x
  have hprev : ∀ (i : Nat) y, es[i]? = some y → (f'.pushBlock x).block (f.blocks.size + i) =
      edgeBlock (n.of y.target) ((n.of y.target).map (sharedReg f.regs.size sites y.target))
        y.target := by
    intro i y hy
    have hi := (List.getElem?_eq_some_iff.mp hy).1
    rw [h.block_push x (Nat.add_lt_add_left hi _)]
    exact h.new i y hy
  simp only [Routine.splitEdge, hx, h.size, Routine.redirect, hold entry h0, h.isComplete_entry h0]
  by_cases hopen : e.source = entry ∧ (f.block entry).isComplete = false
  · -- the open entry has no exit: its route is moved
    have hr : f'.route = e.target := by
      have := h.route
      rw [if_neg (by simp [hopen.2]), hroute hopen.1 hopen.2] at this
      have hne : (⟨entry, e.target⟩ : Edge) ∉ es := by rw [← hopen.1]; exact he
      rw [reroute_of_not_mem hne] at this
      exact Int.ofNat.inj this
    have hnoexit : ∀ ρ : Label → Label, (f'.block entry).mapLabel ρ = f'.block entry := by
      intro ρ
      have hc := h.isComplete_entry h0
      rw [hopen.2] at hc
      exact Block.mapLabel_of_open hc ρ
    rw [if_pos hopen, if_pos (show (f'.pushBlock x).route = e.target from hr)]
    refine ⟨_, rfl, h.name, h.vars, by simp [h.size, Nat.add_assoc], h.regs, ?_, ?_,
      Split.new_pushed (by rw [hx]; exact hlast) hprev, h.sited_append hsited⟩
    · rw [if_neg (by simp [hopen.2]), hroute hopen.1 hopen.2, ← hopen.1, ← reroute_append he ht]
      simp [reroute_of_not_mem he]
    · refine h.old_redirected he ht ?_ fun b hb _ => hold b hb
      rw [hopen.1, Block.retarget_eq, hnoexit]
      exact hold entry h0
  · rw [if_neg hopen]
    have hlt : e.source < (f'.pushBlock x).blocks.size := by
      rw [Routine.size_pushBlock, h.size]; exact Nat.lt_succ_of_lt (Nat.lt_add_right _ hs)
    have hne : ∀ b, b ≠ e.source → ∀ y, ((f'.pushBlock x).modifyBlock e.source y).block b =
        (f'.pushBlock x).block b := fun b hb y => Routine.block_modifyBlock_ne (Ne.symm hb) y
    have hfar : ∀ i, f.blocks.size + i ≠ e.source := fun i =>
      Nat.ne_of_gt (Nat.lt_of_lt_of_le hs (Nat.le_add_right _ _))
    refine ⟨_, rfl, h.name, h.vars, by simp [h.size, Nat.add_assoc], h.regs, ?_, ?_,
      Split.new_pushed ?_ ?_, h.sited_append hsited⟩
    · show (f'.route : Label) = _
      rw [h.route]
      by_cases hc : (f.block entry).isComplete = true
      · rw [if_pos hc, if_pos hc]
      · have : entry ≠ e.source := fun hes => hopen ⟨hes.symm, by simpa using hc⟩
        rw [if_neg hc, if_neg hc, reroute_append_ne this]
    · refine h.old_redirected he ht ?_ fun b hb hbs => (hne b hbs _).trans (hold b hb)
      rw [Routine.block_modifyBlock_self hlt, hold _ hs]
    · rw [hne _ (hfar _), hlast, hx]
    · intro i y hy
      rw [hne _ (hfar _)]
      exact hprev i y hy

end OneEdge

/-! ## One join -/

/-- A join receives the shared registers. -/
theorem Split.join {f f' : Routine} {n : Needs} {es : List Edge} {sites : List Site}
    {joined : List BlockId} (h : Split f n es sites joined f') {t : BlockId}
    (ht : t < f.blocks.size) (hj : t ∉ joined) (hsited : ∀ v ∈ n.of t, ⟨t, v⟩ ∈ sites) :
    Split f n es sites (joined ++ [t])
      (f'.modifyBlock t (·.receiveAll (sharedArrivals f.regs.size n sites t))) where
  name := h.name
  vars := h.vars
  size := by simp [h.size]
  regs := h.regs
  route := h.route
  old b hb := by
    by_cases hbt : b = t
    · subst hbt
      have hin : b ∈ joined ++ [b] := by simp
      rw [Routine.block_modifyBlock_self (by rw [h.size]; exact Nat.lt_add_right _ hb), h.old b hb,
        if_neg hj, if_pos hin, Block.receiveAll_mapLabel]
    · rw [Routine.block_modifyBlock_ne (Ne.symm hbt), h.old b hb]
      simp [hbt]
  new i e he := by
    rw [Routine.block_modifyBlock_ne]
    · exact h.new i e he
    · exact Nat.ne_of_lt (Nat.lt_of_lt_of_le ht (Nat.le_add_right _ _))
  sited u hu v hv := by
    rcases hu with hu | hu
    · rcases List.mem_append.mp hu with hu | hu
      · exact h.sited u (.inl hu) v hv
      · rw [List.mem_singleton.mp hu] at hv ⊢; exact hsited v hv
    · exact h.sited u (.inr hu) v hv

namespace FlowGraph

variable {g : FlowGraph} {n : Needs}

theorem mem_joinEdges {ts : List BlockId} {e : Edge} :
    e ∈ g.joinEdges n ts ↔ e.target ∈ ts ∧ g.IsJoin n e.target ∧ e.source ∈ g.preds e.target := by
  simp only [joinEdges, List.mem_flatMap]
  constructor
  · rintro ⟨t, ht, he⟩
    split at he
    · obtain ⟨p, hp, rfl⟩ := List.mem_map.mp he
      exact ⟨ht, ‹_›, hp⟩
    · cases he
  · rintro ⟨ht, hj, hp⟩
    exact ⟨e.target, ht, by rw [if_pos hj]; exact List.mem_map.mpr ⟨e.source, hp, rfl⟩⟩

theorem mem_joinSites {ts : List BlockId} {s : Site} :
    s ∈ g.joinSites n ts ↔ s.block ∈ ts ∧ g.IsJoin n s.block ∧ s.var ∈ n.of s.block := by
  simp only [joinSites, List.mem_flatMap]
  constructor
  · rintro ⟨t, ht, hs⟩
    split at hs
    · obtain ⟨v, hv, rfl⟩ := List.mem_map.mp hs
      exact ⟨ht, ‹_›, hv⟩
    · cases hs
  · rintro ⟨ht, hj, hv⟩
    exact ⟨s.block, ht, by rw [if_pos hj]; exact List.mem_map.mpr ⟨s.var, hv, rfl⟩⟩

theorem joinEdges_append_join {ts : List BlockId} {t : BlockId} (h : g.IsJoin n t) :
    g.joinEdges n (ts ++ [t]) = g.joinEdges n ts ++ (g.preds t).map fun p => ⟨p, t⟩ := by
  simp [joinEdges, h]

theorem joinEdges_append_other {ts : List BlockId} {t : BlockId} (h : ¬ g.IsJoin n t) :
    g.joinEdges n (ts ++ [t]) = g.joinEdges n ts := by
  simp [joinEdges, h]

theorem joinSites_append_join {ts : List BlockId} {t : BlockId} (h : g.IsJoin n t) :
    g.joinSites n (ts ++ [t]) = g.joinSites n ts ++ (n.of t).map fun v => ⟨t, v⟩ := by
  simp [joinSites, h]

theorem joinSites_append_other {ts : List BlockId} {t : BlockId} (h : ¬ g.IsJoin n t) :
    g.joinSites n (ts ++ [t]) = g.joinSites n ts := by
  simp [joinSites, h]

end FlowGraph

/-- The blocks of split edges are numbered on. -/
def edgeBlocks (base : Nat) (es : List Edge) : List BlockId := (List.range es.length).map (base + ·)

theorem edgeBlocks_append (base : Nat) (es : List Edge) (e : Edge) :
    edgeBlocks base (es ++ [e]) = edgeBlocks base es ++ [base + es.length] := by
  simp [edgeBlocks, List.range_succ]

section Fold

variable {f : Routine} {n : Needs}

/-- The edges from the first predecessors of a join are split. -/
theorem split_preds (hf : f.Closed) {f' : Routine} {es : List Edge} {sites : List Site}
    {joined : List BlockId} {t : BlockId} (h : Split f n es sites joined f')
    (hes : ∀ e ∈ es, e.target ≠ t) (hsited : ∀ v ∈ n.of t, ⟨t, v⟩ ∈ sites) :
    ∃ f'', (f.graph.preds t).foldlM
        (Routine.splitEdge (n.of t) ((n.of t).map (sharedReg f.regs.size sites t)) t)
        (f', edgeBlocks f.blocks.size es) =
          .ok (f'', edgeBlocks f.blocks.size (es ++ (f.graph.preds t).map fun p => ⟨p, t⟩)) ∧
      Split f n (es ++ (f.graph.preds t).map fun p => ⟨p, t⟩) sites joined f'' := by
  obtain ⟨⟨f'', edges⟩, hfold, hsplit, rfl⟩ := foldlM_ok
    (Routine.splitEdge (n.of t) ((n.of t).map (sharedReg f.regs.size sites t)) t)
    (fun ps (s : Routine × List BlockId) =>
      Split f n (es ++ ps.map fun p => ⟨p, t⟩) sites joined s.1 ∧
        s.2 = edgeBlocks f.blocks.size (es ++ ps.map fun p => ⟨p, t⟩))
    (f.graph.preds t) (f', edgeBlocks f.blocks.size es) ⟨by simpa using h, by simp⟩ (by
      rintro ps p rest ⟨f₁, edges⟩ hps ⟨h₁, rfl⟩
      have hp : p ∈ f.graph.preds t := by rw [hps]; simp
      obtain ⟨hpo, hpt⟩ := FlowGraph.mem_preds.mp hp
      have hfresh : (⟨p, t⟩ : Edge) ∉ es ++ ps.map fun p => ⟨p, t⟩ := by
        rw [List.mem_append, not_or]
        refine ⟨fun hm => hes _ hm rfl, fun hm => ?_⟩
        obtain ⟨q, hq, hqe⟩ := List.mem_map.mp hm
        obtain rfl : q = p := (Edge.mk.inj hqe).1
        have hd := FlowGraph.nodup_preds (Routine.nodup_order f) t
        rw [hps, List.nodup_append] at hd
        exact hd.2.2 q hq q (by simp) rfl
      obtain ⟨f₂, hok, h₂⟩ := h₁.edge (e := ⟨p, t⟩) (edgeBlocks f.blocks.size _) hfresh
        (hf.lt_of_mem_order hpo) (hf.succ_mem hpt).2 hsited (by
          rintro (rfl : p = entry) hopen
          have hl := (hf.mem_succs.mp hpt).2
          have hnone : (f.block entry).exit = none := by simpa [Block.isComplete] using hopen
          simp only [Routine.leads, hnone, List.mem_singleton] at hl
          exact (Int.ofNat.inj hl).symm)
      refine ⟨_, hok, by simpa using h₂, ?_⟩
      rw [List.map_append, ← List.append_assoc, List.map_singleton, edgeBlocks_append])
  exact ⟨f'', hfold, hsplit⟩

/-- One step of the pass. -/
theorem split_target (hf : f.Closed) (hn : n.sites.Nodup) {f' : Routine} {done : List BlockId}
    {t : BlockId} (hto : t ∈ f.graph.order) (hdone : t ∉ done)
    (h : Split f n (f.graph.joinEdges n done) (f.graph.joinSites n done)
      (done.filter (f.graph.IsJoin n)) f') :
    ∃ f'', Routine.splitJoin f.graph n (f', edgeBlocks f.blocks.size (f.graph.joinEdges n done)) t =
        .ok (f'', edgeBlocks f.blocks.size (f.graph.joinEdges n (done ++ [t]))) ∧
      Split f n (f.graph.joinEdges n (done ++ [t])) (f.graph.joinSites n (done ++ [t]))
        ((done ++ [t]).filter (f.graph.IsJoin n)) f'' := by
  have hlt := hf.lt_of_mem_order hto
  by_cases hj : f.graph.IsJoin n t
  · have hguard : ¬ ((f.graph.preds t).length < 2 ∨ n.of t = []) := by
      rintro (hp | hv)
      · exact absurd hj.1 (by omega)
      · exact hj.2 hv
    have hfresh : ∀ v, (⟨t, v⟩ : Site) ∉ f.graph.joinSites n done := fun v hm =>
      hdone (FlowGraph.mem_joinSites.mp hm).1
    have hes : ∀ e ∈ f.graph.joinEdges n done, e.target ≠ t := by
      rintro e he rfl
      exact hdone (FlowGraph.mem_joinEdges.mp he).1
    have hsited : ∀ v ∈ n.of t, (⟨t, v⟩ : Site) ∈ f.graph.joinSites n (done ++ [t]) := fun v hv =>
      FlowGraph.mem_joinSites.mpr ⟨by simp, hj, hv⟩
    have hshare := h.share (t := t)
    have hregs := shareRegs_snd h.regs_size hfresh (Needs.nodup_of hn t)
    rw [← FlowGraph.joinSites_append_join hj] at hshare hregs
    obtain ⟨f₁, hok, h₁⟩ := split_preds hf hshare hes hsited
    rw [← FlowGraph.joinEdges_append_join hj] at hok h₁
    have hjoined : t ∉ done.filter (f.graph.IsJoin n) := fun hm => hdone (List.mem_of_mem_filter hm)
    refine ⟨f₁.modifyBlock t
      (·.receiveAll (sharedArrivals f.regs.size n (f.graph.joinSites n (done ++ [t])) t)), ?_, ?_⟩
    · simp only [Routine.splitJoin, if_neg hguard, hregs, hok, bind, Except.bind, pure, Except.pure]
      rfl
    · rw [List.filter_append, List.filter_singleton, decide_eq_true hj]
      exact h₁.join hlt hjoined hsited
  · refine ⟨f', ?_, ?_⟩
    · have hguard : (f.graph.preds t).length < 2 ∨ n.of t = [] := by
        by_contra hc
        rw [not_or] at hc
        exact hj ⟨by omega, hc.2⟩
      simp only [Routine.splitJoin, if_pos hguard, FlowGraph.joinEdges_append_other hj]
    · rw [FlowGraph.joinEdges_append_other hj, FlowGraph.joinSites_append_other hj,
        List.filter_append, List.filter_singleton, decide_eq_false hj]
      simpa using h

/-- Splitting joins never stops, and splits exactly the edges into joins. -/
theorem splitJoins_spec (hf : f.Closed) (hn : n.sites.Nodup) :
    ∃ f', f.splitJoins f.graph n =
        .ok (f', edgeBlocks f.blocks.size (f.graph.joinEdges n f.graph.order)) ∧
      Split f n (f.graph.joinEdges n f.graph.order) (f.graph.joinSites n f.graph.order)
        (f.graph.order.filter (f.graph.IsJoin n)) f' := by
  obtain ⟨⟨f', edges⟩, hfold, hsplit, rfl⟩ := foldlM_ok (Routine.splitJoin f.graph n)
    (fun done (s : Routine × List BlockId) =>
      Split f n (f.graph.joinEdges n done) (f.graph.joinSites n done)
        (done.filter (f.graph.IsJoin n)) s.1 ∧
        s.2 = edgeBlocks f.blocks.size (f.graph.joinEdges n done))
    f.graph.order (f, []) ⟨split_refl f n, rfl⟩ (by
      rintro done t rest ⟨f₁, edges⟩ ho ⟨h₁, rfl⟩
      have hd := Routine.nodup_order f
      rw [ho, List.nodup_append] at hd
      obtain ⟨f₂, hok, h₂⟩ := split_target hf hn (t := t) (by rw [ho]; simp)
        (fun hm => hd.2.2 t hm t (by simp) rfl) h₁
      exact ⟨_, hok, h₂, rfl⟩)
  exact ⟨f', hfold, hsplit⟩

end Fold

end ProcCompiler
