import ProcCompiler.Proofs.Draft.Steps
import ProcCompiler.Proofs.Lowering.Ready
import ProcCompiler.Proofs.Semantics.Code
/-!
# Detours

Lowering adds blocks that change no variable: an exit block that all returns jump to, the blocks of
split edges, which copy each variable to itself, and the entry. The listings with these blocks
behave as those without.

* `Sketched`: a ready routine that was built from listings.
* `Sketched.follows_exit`: the exit block.
* `Sketched.follows_split`: split edges.
* `Sketched.same_detours`: both, from the entry on.
-/
namespace ProcCompiler

open Machine

/-- A ready routine that was built from listings. -/
structure Sketched (f : Routine) (sk : BlockId → Listing Var) : Prop where
  ready : f.Ready
  renders : ∀ b, Block.Renders f.Owns (f.block b) (sk b)

section

variable {ρ ℓ ℓ' V W : Type} {I : Interp V W} {mem : ρ → V} {e : Exit ρ ℓ}

theorem Exit.follow_mem_labels [DecidableEq ℓ] {l : ℓ} (h : e.follow I mem = some l) :
    l ∈ e.labels := by
  rw [Exit.mem_labels]
  cases e with
  | jump t => exact (Option.some.inj h).symm
  | branch c t u =>
    simp only [Exit.follow, Option.some.injEq] at h
    split at h
    · exact .inl h.symm
    · exact .inr h.symm
  | ret => cases h

theorem Exit.follow_mapLabel (g : ℓ → ℓ') :
    (e.mapLabel g).follow I mem = (e.follow I mem).map g := by
  cases e with
  | branch c t u =>
    simp only [Exit.mapLabel, Exit.follow, Option.map_some]
    split <;> rfl
  | _ => rfl

/-- Every action of a traced listing can be executed. -/
theorem Traced.exec_isSome {own : Reg → Var → Prop} {loc loc' : Var → Ref}
    {as : List (Action Reg Ref)} {ss : List (Action Var Var)} (h : Traced own loc as ss loc')
    {a : Action Var Var} (ha : a ∈ ss) (I : Interp V W) (fnName : FuncId → String)
    (s : Store Var V W) :
    ∃ event s', a.exec I fnName s = some (event, s') := by
  induction h with
  | nil => cases ha
  | @step _ _ _ _ c w r hw _ _ ih =>
    rcases List.mem_cons.mp ha with rfl | ha
    · cases a with
      | unknown code => cases hw
      | _ => exact ⟨_, _, rfl⟩
    · exact ih ha

end

namespace Sketched

variable {f : Routine} {sk : BlockId → Listing Var} (h : Sketched f sk)

include h

theorem exists_exit {b : BlockId} (hb : b ∈ f.graph.order) (h0 : b ≠ entry) :
    ∃ e, (sk b).exit = some e ∧ e.labels = f.leads b := by
  have hc := h.ready.closed.complete b (h.ready.closed.lt_of_mem_order hb) h0
  obtain ⟨x, hx⟩ := Option.isSome_iff_exists.mp hc
  have he := (h.renders b).exit
  rw [Block.exitRef, hx] at he
  obtain ⟨e, hse, hex⟩ := Option.map_eq_some_iff.mp he.symm
  refine ⟨e, hse, ?_⟩
  rw [Routine.leads, hx, ← Exit.labels_mapRead (f.block b).located, hex, Exit.labels_mapRead]

/-- An exit leads to a block that is reached. -/
theorem exists_target {V W : Type} {I : Interp V W} {mem : Var → V} {b : BlockId}
    {e : Exit Var Label} {l : Label} (hb : b ∈ f.graph.order) (h0 : b ≠ entry)
    (he : (sk b).exit = some e) (hl : e.follow I mem = some l) :
    ∃ t : BlockId, l = t ∧ t ∈ f.graph.succs b ∧ t ∈ f.graph.order ∧ t ≠ entry := by
  obtain ⟨e', he', hlabels⟩ := h.exists_exit hb h0
  cases he.symm.trans he'
  exact h.ready.closed.exists_succ hb (hlabels ▸ Exit.follow_mem_labels hl)

end Sketched

/-! ## Blocks with the same actions -/

section

variable {V W : Type}

/-- Both machines are in one state, in a block of the body that is reached. -/
structure Together (f : Routine) (s t : BlockState Var V W) : Prop where
  same : t = s
  reached : s.point.block ∈ f.graph.order
  body : s.point.block ≠ entry

/-- Where the actions of a block are the same, it is enough to compare its exits. -/
theorem Sketched.answers {f : Routine} {sk sk' : BlockId → Listing Var} (h : Sketched f sk)
    {I : Interp V W} {fnName : FuncId → String} {q : Point} {s : Store Var V W}
    (hq : q.block ∈ f.graph.order) (h0 : q.block ≠ entry)
    (hbody : (sk' q.block).body = (sk q.block).body)
    (hexit : ∀ e, (sk q.block).exit = some e → (sk' q.block).body[q.index]? = none →
      (blockMachine I fnName sk).step ⟨q, s⟩ = leaveBlock I s e →
      (blockMachine I fnName sk).Answers (blockMachine I fnName sk') (Together f)
      (fun _ => 0) ⟨q, s⟩ ⟨q, s⟩) :
    (blockMachine I fnName sk).Answers (blockMachine I fnName sk') (Together f)
    (fun _ => 0) ⟨q, s⟩ ⟨q, s⟩ := by
  cases ha : (sk q.block).body[q.index]? with
  | some a =>
    obtain ⟨event, s', hexec⟩ :=
      (h.renders q.block).body.exec_isSome (List.mem_of_getElem? ha) I fnName s
    exact answers_of_step (blockStep_action ha hexec) (blockStep_action (hbody ▸ ha) hexec)
      ⟨rfl, hq, h0⟩
  | none =>
    obtain ⟨e, he, -⟩ := h.exists_exit hq h0
    exact hexit e he (hbody ▸ ha) (blockStep_exit ha he)

/-- An exit with the same label leads to the same state. -/
theorem Sketched.answers_exit {f : Routine} {sk sk' : BlockId → Listing Var} (h : Sketched f sk)
    {I : Interp V W} {fnName : FuncId → String} {q : Point} {s : Store Var V W}
    (hq : q.block ∈ f.graph.order) (h0 : q.block ≠ entry) {e : Exit Var Label}
    (he : (sk q.block).exit = some e)
    (hstep : (blockMachine I fnName sk).step ⟨q, s⟩ = leaveBlock I s e)
    (hhalt : e = .ret → ∃ n t, (blockMachine I fnName sk').Runs n ⟨q, s⟩ [] t ∧
      (blockMachine I fnName sk').step t = .halt ∧ t.store.world = s.world)
    (hgo : ∀ t : BlockId, e.follow I s.mem = some (t : Label) → t ∈ f.graph.succs q.block →
      ∃ n, 0 < n ∧ (blockMachine I fnName sk').Runs n ⟨q, s⟩ [] ⟨{ block := t, index := 0 }, s⟩) :
    (blockMachine I fnName sk).Answers (blockMachine I fnName sk') (Together f)
    (fun _ => 0) ⟨q, s⟩ ⟨q, s⟩ := by
  rw [Answers, hstep, leaveBlock]
  cases hf : e.follow I s.mem with
  | none =>
    obtain ⟨n, t, hn, hh, hw⟩ := hhalt (by cases e <;> first | rfl | cases hf)
    exact ⟨n, t, hn, hh, hw⟩
  | some l =>
    obtain ⟨t, rfl, hs, ho, ht0⟩ := h.exists_target hq h0 he hf
    obtain ⟨n, hpos, hn⟩ := hgo t hf hs
    exact ⟨n, _, hn, ⟨rfl, ho, ht0⟩, .inl hpos⟩

end

/-! ## The exit block -/

/-- A return becomes a jump. -/
def Exit.redirectReturn {ρ : Type} (x : BlockId) : Exit ρ Label → Exit ρ Label
  | .ret => .jump x
  | e => e

/-- The listings with an exit block. -/
def Routine.exitSketch (f : Routine) (sk : BlockId → Listing Var) (b : BlockId) : Listing Var :=
  if b = f.blocks.size then { exit := some .ret }
  else if b ∈ f.graph.order then
    { sk b with exit := (sk b).exit.map (Exit.redirectReturn f.blocks.size) }
  else sk b

section

variable {ρ ρ' : Type} (x : BlockId)

theorem Exit.map_mapRead_redirectReturn (g : ρ → ρ') (o : Option (Exit ρ Label)) :
    (o.map (redirectReturn x)).map (·.mapRead g) = (o.map (·.mapRead g)).map
      (redirectReturn x) := by
  cases o with
  | none => rfl
  | some e => cases e <;> rfl

theorem Exit.read?_redirectReturn (e : Exit ρ Label) : (e.redirectReturn x).read? = e.read? := by
  cases e <;> rfl

theorem Block.exit_redirectReturn (b : Block) :
    (b.redirectReturn x).exit = b.exit.map (Exit.redirectReturn x) := by
  unfold Block.redirectReturn
  cases hb : b.exit with
  | none => simp [hb]
  | some e => cases e <;> simp [hb, Exit.redirectReturn]

/-- A listing reads first what it read, since a return and a jump read nothing. -/
theorem Listing.readsFirst_redirectReturn (v : Var) (e : Option (Exit Var Label)) :
    ∀ as : List (Action Var Var), ReadsFirst v as (e.map (Exit.redirectReturn x)) ↔
      ReadsFirst v as e
  | [] => by
    cases e with
    | none => rfl
    | some e => simp [ReadsFirst, Exit.read?_redirectReturn]
  | a :: as => by simp only [ReadsFirst, readsFirst_redirectReturn v e as]

theorem Block.Renders.redirectReturn {own : Reg → Var → Prop} {b : Block} {s : Listing Var}
    (h : Renders own b s) :
    Renders own (b.redirectReturn x) { s with exit := s.exit.map (Exit.redirectReturn x) } where
  body := by
    have hbody : (b.redirectReturn x).bodyRefs = b.bodyRefs := by simp [bodyRefs]
    have hloc : (b.redirectReturn x).located = b.located := by funext v; simp [located]
    rw [hbody, hloc]
    exact h.body
  exit := by
    have hloc : (b.redirectReturn x).located = b.located := by funext v; simp [located]
    have he := h.exit
    rw [exitRef] at he
    rw [exitRef, exit_redirectReturn, hloc, params_redirectReturn,
      Exit.map_mapRead_redirectReturn, he, Exit.map_mapRead_redirectReturn]
  params v := by
    rw [params_redirectReturn, h.params]
    exact (Listing.readsFirst_redirectReturn x v s.exit s.body).symm

end

namespace Sketched

variable {f : Routine} {sk : BlockId → Listing Var} (h : Sketched f sk)

include h

theorem addExit : Sketched (f.addExit f.graph).1 (f.exitSketch sk) where
  ready := h.ready.addExit
  renders b := by
    have hown : (f.addExit f.graph).1.Owns = f.Owns := by
      funext r v
      unfold Routine.Owns Routine.regInfo?
      rw [Routine.regs_addExit]
    rw [hown]
    unfold Routine.exitSketch
    rcases Nat.lt_trichotomy b f.blocks.size with hb | rfl | hb
    · rw [if_neg (Nat.ne_of_lt hb), Routine.block_addExit hb]
      split
      · exact (h.renders b).redirectReturn _
      · exact h.renders b
    · rw [if_pos rfl, Routine.block_addExit_exit]
      exact ⟨.nil, rfl, fun v => by simp [Listing.Reads, Listing.ReadsFirst, Exit.read?]⟩
    · have ho : b ∉ f.graph.order := fun ho =>
        Nat.lt_asymm hb (h.ready.closed.lt_of_mem_order ho)
      rw [if_neg (Nat.ne_of_gt hb), if_neg ho,
        Routine.block_of_le (by rw [Routine.size_addExit]; exact hb),
        ← Routine.block_of_le (Nat.le_of_lt hb)]
      exact h.renders b

/-- The listings with an exit block behave as those without. -/
theorem follows_exit {V W : Type} (I : Interp V W) (fnName : FuncId → String) :
    (blockMachine I fnName sk).Follows (blockMachine I fnName (f.exitSketch sk))
      (Together f) fun _ => 0 := by
  rintro ⟨q, s⟩ _ ⟨rfl, hq, h0⟩
  have hlt := h.ready.closed.lt_of_mem_order hq
  have hsk : f.exitSketch sk q.block =
      { sk q.block with exit := (sk q.block).exit.map (Exit.redirectReturn f.blocks.size) } := by
    rw [Routine.exitSketch, if_neg (Nat.ne_of_lt hlt), if_pos hq]
  refine h.answers hq h0 (by rw [hsk]) fun e he hnone hstep => ?_
  have he' : (f.exitSketch sk q.block).exit = some (e.redirectReturn f.blocks.size) := by
    rw [hsk, he]; rfl
  have hstep' : (blockMachine I fnName (f.exitSketch sk)).step ⟨q, s⟩ =
      leaveBlock I s (e.redirectReturn f.blocks.size) := blockStep_exit hnone he'
  refine h.answers_exit hq h0 he hstep ?_ fun t ht _ => ?_
  · rintro rfl
    refine ⟨1, ⟨{ block := f.blocks.size, index := 0 }, s⟩, .single hstep', ?_, rfl⟩
    have hx : f.exitSketch sk f.blocks.size = { exit := some .ret } := if_pos rfl
    exact (blockStep_exit (by rw [hx]; rfl) (by rw [hx])).trans rfl
  · refine ⟨1, Nat.one_pos, .silent ?_⟩
    have hne : e.redirectReturn f.blocks.size = e := by cases e <;> first | rfl | cases ht
    rw [hstep', hne, leaveBlock, ht]

end Sketched

/-! ## Split edges -/

/-- The listing of an edge: each variable is copied to itself. -/
def edgeListing (vs : List Var) (t : BlockId) : Listing Var where
  body := vs.map fun v => .move v v
  exit := some (.jump t)

/-- The listings with an entry and with the blocks of split edges. -/
def Routine.splitSketch (f : Routine) (n : Needs) (sk : BlockId → Listing Var) (b : BlockId) :
    Listing Var :=
  if b = entry then { exit := some (.jump (f.viaLabel n entry f.route)) }
  else if b < f.blocks.size then { sk b with exit := (sk b).exit.map (·.mapLabel (f.viaLabel n b)) }
  else
    match (f.edges n)[b - f.blocks.size]? with
    | some e => edgeListing (n.of e.target) e.target
    | none => {}

namespace Routine

variable {f : Routine} {n : Needs} {sk : BlockId → Listing Var}

theorem splitSketch_old (f : Routine) (n : Needs) (sk : BlockId → Listing Var) {b : BlockId}
    (h0 : b ≠ entry) (hb : b < f.blocks.size) :
    f.splitSketch n sk b = { sk b with exit := (sk b).exit.map (·.mapLabel (f.viaLabel n b)) } := by
  rw [splitSketch, if_neg h0, if_pos hb]

theorem splitSketch_edge (h0 : 0 < f.blocks.size) {e : Edge} (he : e ∈ f.edges n) :
    f.splitSketch n sk (f.edgeId n e) = edgeListing (n.of e.target) e.target := by
  have hle := le_edgeId f n e
  have hidx : (f.edges n)[f.edgeId n e - f.blocks.size]? = some e := by
    rw [edgeId, Nat.add_sub_cancel_left, List.getElem?_eq_getElem (List.idxOf_lt_length_iff.mpr he),
      List.getElem_idxOf]
  have hne : f.edgeId n e ≠ entry := Nat.ne_of_gt (Nat.lt_of_lt_of_le h0 hle)
  rw [splitSketch, if_neg hne, if_neg (Nat.not_lt.mpr hle), hidx]

end Routine

section

variable {V W : Type} {I : Interp V W} {fnName : FuncId → String} {blocks : BlockId → Listing Var}
  {b : BlockId} {vs : List Var} {t : BlockId}

/-- Copying variables to themselves changes nothing. -/
theorem runs_selfMoves (hb : blocks b = edgeListing vs t) (s : Store Var V W) : ∀ i ≤ vs.length,
    (blockMachine I fnName blocks).Runs i ⟨{ block := b, index := 0 }, s⟩
      [] ⟨{ block := b, index := i }, s⟩
  | 0, _ => .refl _
  | i + 1, hi => by
    have hlt : i < vs.length := hi
    have ha : (blocks b).body[i]? = some (.move vs[i] vs[i]) := by simp [hb, edgeListing, hlt]
    have hexec : (Action.move vs[i] vs[i]).exec I fnName s = some (none, s) := by
      simp only [Action.exec, Store.set, Function.update_eq_self]
    have hstep : (blockMachine I fnName blocks).step ⟨{ block := b, index := i }, s⟩ =
        .go none ⟨{ block := b, index := i + 1 }, s⟩ := blockStep_action ha hexec
    exact (runs_selfMoves hb s i (Nat.le_of_lt hlt)).trans (.silent hstep)

/-- The block of an edge leads to the edge's target. -/
theorem runs_edge (hb : blocks b = edgeListing vs t) (s : Store Var V W) : ∃ n,
    (blockMachine I fnName blocks).Runs n ⟨{ block := b, index := 0 }, s⟩
      [] ⟨{ block := t, index := 0 }, s⟩ := by
  have hstep : (blockMachine I fnName blocks).step ⟨{ block := b, index := vs.length }, s⟩ =
      .go none ⟨{ block := t, index := 0 }, s⟩ :=
    (blockStep_exit (by simp [hb, edgeListing]) (by rw [hb]; rfl)).trans rfl
  exact ⟨vs.length + 1, (runs_selfMoves hb s vs.length (Nat.le_refl _)).trans (.silent hstep)⟩

end

namespace Sketched

variable {f f₂ : Routine} {n : Needs} {sk : BlockId → Listing Var} (h : Sketched f sk) {V W : Type}
  (I : Interp V W) (fnName : FuncId → String)

include h

/-- A split edge is a detour. -/
theorem runs_via (b t : BlockId) (s : Store Var V W) :
    ∃ k, (blockMachine I fnName (f.splitSketch n sk)).Runs k
    ⟨{ block := f.via n b t, index := 0 }, s⟩ [] ⟨{ block := t, index := 0 }, s⟩ := by
  unfold Routine.via
  split
  · rename_i he
    exact runs_edge
      (Routine.splitSketch_edge (Nat.lt_of_lt_of_le Nat.zero_lt_two h.ready.closed.body) he) s
  · exact ⟨0, .refl _⟩

/-- The listings with split edges behave as those without. -/
theorem follows_split :
    (blockMachine I fnName sk).Follows (blockMachine I fnName (f.splitSketch n sk)) (Together f)
    fun _ => 0 := by
  rintro ⟨q, s⟩ _ ⟨rfl, hq, h0⟩
  have hsk := f.splitSketch_old n sk h0 (h.ready.closed.lt_of_mem_order hq)
  refine h.answers hq h0 (by rw [hsk]) fun e he hnone hstep => ?_
  have he' : (f.splitSketch n sk q.block).exit = some (e.mapLabel (f.viaLabel n q.block)) := by
    rw [hsk, he]; rfl
  have hstep' : (blockMachine I fnName (f.splitSketch n sk)).step ⟨q, s⟩ =
      leaveBlock I s (e.mapLabel (f.viaLabel n q.block)) := blockStep_exit hnone he'
  refine h.answers_exit hq h0 he hstep ?_ fun t ht _ => ?_
  · rintro rfl
    exact ⟨0, _, .refl _, hstep'.trans rfl, rfl⟩
  · obtain ⟨k, hk⟩ := h.runs_via (n := n) I fnName q.block t s
    refine ⟨1 + k, Nat.lt_of_lt_of_le Nat.one_pos (Nat.le_add_right 1 k),
      Runs.trans (.silent ?_) hk⟩
    rw [hstep', leaveBlock, Exit.follow_mapLabel, ht, Option.map_some, viaLabel_natCast]

/-- The entry leads to the body. -/
theorem runs_entry (s : Store Var V W) : ∃ k, (blockMachine I fnName (f.splitSketch n sk)).Runs k
    ⟨{ block := entry, index := 0 }, s⟩ [] ⟨{ block := f.route, index := 0 }, s⟩ := by
  have hsk : f.splitSketch n sk entry = { exit := some (.jump (f.viaLabel n entry f.route)) } :=
    if_pos rfl
  obtain ⟨k, hk⟩ := h.runs_via (n := n) I fnName entry f.route s
  refine ⟨1 + k, Runs.trans (.silent ?_) hk⟩
  refine (blockStep_exit (by rw [hsk]; rfl) (by rw [hsk])).trans ?_
  rw [leaveBlock, Exit.follow, viaLabel_natCast]

/-- The listings with all detours, started at the entry, behave as those without. -/
theorem same_detours (s : Store Var V W) :
    (blockMachine I fnName sk).Same ⟨{ block := f.route, index := 0 }, s⟩
    (blockMachine I fnName ((f.addExit f.graph).1.splitSketch n (f.exitSketch sk)))
    ⟨{ block := entry, index := 0 }, s⟩ := by
  have hexit : (blockMachine I fnName sk).Same ⟨{ block := f.route, index := 0 }, s⟩
      (blockMachine I fnName (f.exitSketch sk)) ⟨{ block := f.route, index := 0 }, s⟩ :=
    (h.follows_exit I fnName).same ⟨rfl, h.ready.route_mem_order, h.ready.route_ne_entry⟩
  obtain ⟨k, hk⟩ := h.addExit.runs_entry (n := n) I fnName s
  have hroute := h.addExit.ready.route_mem_order
  rw [Routine.route_addExit] at hk hroute
  exact hexit.trans ((h.addExit.follows_split I fnName).ahead.same
    ⟨k, _, hk, rfl, hroute, h.ready.route_ne_entry⟩)

end Sketched

end ProcCompiler
