import ProcCompiler.Lowering.Arguments
import ProcCompiler.Proofs.Block.Receive
import ProcCompiler.Proofs.Graph.Analyze
/-!
# What binding arguments does

Of the variables that the entry needs, those with a slot are bound to new registers in order, and
the names of the others are reported in order. In `Bound` and `Entered` the entry is taken to hold
no code and to wait for nothing; `Argued` asks nothing of it.

* `bindArguments_argued`: what changes, whatever the entry holds and whatever the outcome.
* `Bound`: the routine after some variables are bound.
* `Entered`: the routine when its entry is complete.
* `bindArguments_ok`, `bindArguments_missing`: the two outcomes.
-/
namespace ProcCompiler

/-- The first slot of a variable. -/
def slotOf? (slots : List Slot) (v : Var) : Option Nat := slots.findIdx? (·.var = v)

theorem slotOf?_isSome {slots : List Slot} {v : Var} :
    (slotOf? slots v).isSome ↔ v ∈ slots.map Slot.var := by
  rw [slotOf?, List.findIdx?_isSome, List.any_eq_true, List.mem_map]
  simp only [decide_eq_true_eq]

theorem slotOf?_eq_none {slots : List Slot} {v : Var} :
    slotOf? slots v = none ↔ v ∉ slots.map Slot.var := by
  rw [← slotOf?_isSome, ← Option.isNone_iff_eq_none]
  simp

/-- The slot of a variable is one of the slots, and has that variable. -/
theorem slotOf?_eq_some {slots : List Slot} {v : Var} {i : Nat} (h : slotOf? slots v = some i) :
    ∃ s, slots[i]? = some s ∧ s.var = v := by
  rw [slotOf?, List.findIdx?_eq_some_iff_getElem] at h
  obtain ⟨hi, hv, -⟩ := h
  exact ⟨slots[i], List.getElem?_eq_getElem hi, by simpa using hv⟩

/-- The entry holds no code and waits for nothing. -/
structure Block.Bare (b : Block) : Prop where
  params : b.params = []
  body : b.body = []
  isOpen : b.exit = none

/-- `f'` is `f` with the variables `vs` bound in the entry to new registers, in order. -/
structure Bound (f : Routine) (slots : List Slot) (vs : List Var) (f' : Routine) : Prop where
  name : f'.name = f.name
  vars : f'.vars = f.vars
  route : f'.route = f.route
  size : f'.blocks.size = f.blocks.size
  regs : f'.regs.toList = f.regs.toList ++ vs.map fun v => { var := v, slot := slotOf? slots v }
  other : ∀ b, b ≠ entry → f'.block b = f.block b
  bare : (f'.block entry).Bare
  binding : ∀ v, (f'.block entry).binding? v =
    if v ∈ vs then some ((f.regs.size + vs.idxOf v : Nat) : Reg) else (f.block entry).binding? v

theorem Block.Bare.fill {b : Block} (h : b.Bare) (v : Var) (r : Reg) : b.fill v r = b := by
  simp [Block.fill, h.params]

theorem Block.binding?_bind (b : Block) (v w : Var) (r : Reg) :
    (b.bind v r).binding? w = if w = v then some r else b.binding? w := by
  simp only [bind, binding?, Std.ExtTreeMap.getElem?_insert]
  by_cases h : w = v
  · subst h; simp
  · have hc : ¬ compare v w = .eq := fun e => h (Std.LawfulEqOrd.eq_of_compare e).symm
    rw [if_neg hc, if_neg h]

/-- A binding in place of an earlier one, and the same register arrives. -/
theorem Block.binding?_bind_receive (b : Block) (v w : Var) (r : Reg) :
    ((b.bind v r).receive v r).binding? w = if w = v then some r else b.binding? w := by
  rw [binding?_receive, binding?_bind]
  by_cases hw : w = v
  · rw [if_pos hw]; rfl
  · rw [if_neg hw, Function.update_of_ne hw, Option.or_none]

/-! ## Any entry -/

/-- `f'` is `f` after the variables `vs` were looked up in the slots. The entry binds those with a
slot to new registers, in place of what it bound them to. -/
structure Argued (f : Routine) (slots : List Slot) (vs : List Var) (f' : Routine) : Prop where
  size : f'.blocks.size = f.blocks.size
  route : f'.route = f.route
  other : ∀ b, b ≠ entry → f'.block b = f.block b
  regs : f'.regs.toList = f.regs.toList ++
    (vs.filter fun v => (slotOf? slots v).isSome).map fun v => { var := v, slot := slotOf? slots v }
  given : ∀ v ∈ vs, v ∈ slots.map Slot.var → ∃ r : Nat, f.regs.size ≤ r ∧
    (f'.block entry).binding? v = some (r : Reg) ∧
      f'.regs[r]? = some { var := v, slot := slotOf? slots v }
  kept : ∀ v, ¬ (v ∈ vs ∧ v ∈ slots.map Slot.var) →
    (f'.block entry).binding? v = (f.block entry).binding? v

section

variable {f f' : Routine} {slots : List Slot} {vs : List Var}

theorem argued_refl : Argued f slots [] f :=
  ⟨rfl, rfl, fun _ _ => rfl, by simp, fun _ hv => absurd hv List.not_mem_nil, fun _ _ => rfl⟩

theorem Argued.size_le (h : Argued f slots vs f') : f.regs.size ≤ f'.regs.size := by
  have := congrArg List.length h.regs
  simp only [Array.length_toList, List.length_append] at this
  omega

/-- A variable without a slot changes nothing. -/
theorem Argued.skip (h : Argued f slots vs f') {v : Var} (hv : slotOf? slots v = none) :
    Argued f slots (vs ++ [v]) f' := by
  have hv' := slotOf?_eq_none.mp hv
  refine ⟨h.size, h.route, h.other, ?_, fun w hw hs => ?_, fun w hw => h.kept w fun hm => hw ?_⟩
  · rw [h.regs]
    simp [hv]
  · refine h.given w ?_ hs
    rcases List.mem_append.mp hw with hw | hw
    · exact hw
    · exact absurd (List.mem_singleton.mp hw ▸ hs) hv'
  · exact ⟨List.mem_append_left _ hm.1, hm.2⟩

/-- A variable with a slot is bound to a new register. -/
theorem Argued.give (h : Argued f slots vs f') (h0 : entry < f.blocks.size) {v : Var} {i : Nat}
    (hi : slotOf? slots v = some i) : Argued f slots (vs ++ [v])
      ((f'.pushReg { var := v, slot := some i }).modifyBlock entry fun b =>
        (b.bind v (f'.regs.size : Nat)).receive v (f'.regs.size : Nat)) := by
  have hlt : entry < (f'.pushReg { var := v, slot := some i }).blocks.size := h.size.symm ▸ h0
  have hself := Routine.block_modifyBlock_self hlt fun b =>
    (b.bind v (f'.regs.size : Nat)).receive v (f'.regs.size : Nat)
  have hblock : (f'.pushReg { var := v, slot := some i }).block entry = f'.block entry := rfl
  refine ⟨by simpa [Routine.pushReg] using h.size, h.route, fun b hb => ?_, ?_, fun w hw hs => ?_,
    fun w hw => ?_⟩
  · rw [Routine.block_modifyBlock_ne (Ne.symm hb)]
    exact h.other b hb
  · show (f'.regs.push _).toList = _
    simp [h.regs, hi]
  · show ∃ r : Nat, _ ∧ _ ∧ (f'.regs.push _)[r]? = _
    rw [hself, hblock, Block.binding?_bind_receive]
    by_cases hwv : w = v
    · subst hwv
      exact ⟨f'.regs.size, h.size_le, if_pos rfl, by simp [hi]⟩
    · have hw : w ∈ vs := by simpa [hwv] using hw
      obtain ⟨r, hle, hr, hinfo⟩ := h.given w hw hs
      obtain ⟨hlt, hget⟩ := Array.getElem?_eq_some_iff.mp hinfo
      exact ⟨r, hle, by rw [if_neg hwv, hr], by rw [Array.getElem?_push_lt hlt, hget]⟩
  · have hwv : w ≠ v := by
      rintro rfl
      exact hw ⟨by simp, slotOf?_isSome.mp (by rw [hi]; rfl)⟩
    rw [hself, hblock, Block.binding?_bind_receive, if_neg hwv]
    exact h.kept w fun hm => hw ⟨List.mem_append_left _ hm.1, hm.2⟩

/-- The exit that completes the entry changes no binding. -/
theorem Argued.enter (h : Argued f slots vs f') (h0 : entry < f.blocks.size)
    (e : Exit Operand Label) :
    Argued f slots vs (f'.modifyBlock entry (·.add (.exit e))) := by
  have hself := Routine.block_modifyBlock_self (f := f') (h.size.symm ▸ h0) (·.add (.exit e))
  refine ⟨by simpa using h.size, h.route, fun b hb => ?_, h.regs, fun v hv hs => ?_, fun v hv => ?_⟩
  · rw [Routine.block_modifyBlock_ne (Ne.symm hb)]
    exact h.other b hb
  · rw [hself]
    exact h.given v hv hs
  · rw [hself]
    exact h.kept v hv

end

/-- Binding arguments asks for an open entry, and sends it on to the route unless something is
missing. -/
theorem bindArguments_argued {f f' : Routine} {n : Needs} {slots : List Slot}
    {e : Option SignatureError} (h0 : entry < f.blocks.size)
    (h : f.bindArguments n slots = .ok (f', e)) :
    (f.block entry).exit = none ∧ Argued f slots (n.of entry) f' ∧
      (e = none → (f'.block entry).exit = some (.jump f.route)) := by
  unfold Routine.bindArguments at h
  split at h
  · cases h
  · rename_i hopen
    have hfold :=
      foldl_inv (Routine.bindSlot slots) (fun done s => Argued f slots done s.1) (n.of entry)
        (f, [])
      argued_refl (by
        rintro done v - ⟨f₁, missing⟩ - h₁
        cases hi : slotOf? slots v with
        | none =>
          have hi' : slots.findIdx? (fun s => decide (s.var = v)) = none := hi
          simp only [Routine.bindSlot, hi']
          exact h₁.skip hi
        | some i =>
          have hi' : slots.findIdx? (fun s => decide (s.var = v)) = some i := hi
          simp only [Routine.bindSlot, hi']
          exact h₁.give h0 hi)
    refine ⟨by simpa [Block.isComplete] using hopen, ?_⟩
    split at h
    · rename_i f₁ heq
      rw [heq] at hfold
      cases h
      refine ⟨hfold.enter h0 _, fun _ => ?_⟩
      rw [Routine.block_modifyBlock_self (hfold.size.symm ▸ h0), ← hfold.route]
      rfl
    · rename_i f₁ missing hne heq
      rw [heq] at hfold
      cases h
      exact ⟨hfold, fun he => by cases he⟩

/-! ## An untouched entry -/

section

variable {f f' : Routine} {slots : List Slot} {vs : List Var}

theorem bound_refl (hb : (f.block entry).Bare) : Bound f slots [] f :=
  ⟨rfl, rfl, rfl, rfl, by simp, fun _ _ => rfl, hb, fun v => by simp⟩

theorem Bound.regs_size (h : Bound f slots vs f') : f'.regs.size = f.regs.size + vs.length := by
  have := congrArg List.length h.regs
  simpa using this

/-- One more variable is bound. -/
theorem Bound.bindSlot (h : Bound f slots vs f') (h0 : entry < f.blocks.size) {v : Var}
    (hv : v ∉ vs) {i : Nat} (hi : slotOf? slots v = some i) (missing : List String) :
    ∃ f'', Routine.bindSlot slots (f', missing) v = (f'', missing) ∧
      Bound f slots (vs ++ [v]) f'' := by
  have hlt : entry < f'.blocks.size := by rw [h.size]; exact h0
  have hi' : slots.findIdx? (fun s => decide (s.var = v)) = some i := hi
  simp only [Routine.bindSlot, hi']
  refine ⟨_, rfl, h.name, h.vars, h.route, by simpa [Routine.pushReg] using h.size, ?_, ?_, ?_,
    fun w => ?_⟩
  · show (f'.regs.push _).toList = _
    simp [h.regs, hi]
  · intro b hb
    rw [Routine.block_modifyBlock_ne (Ne.symm hb)]
    exact h.other b hb
  all_goals
    have hself := Routine.block_modifyBlock_self (f := f'.pushReg { var := v, slot := some i }) hlt
      fun b => (b.bind v (f'.regs.size : Nat)).receive v (f'.regs.size : Nat)
    have hblock : (f'.pushReg { var := v, slot := some i }).block entry = f'.block entry := rfl
  · rw [hself, hblock]
    have hb : ((f'.block entry).bind v (f'.regs.size : Nat)).Bare :=
      ⟨h.bare.params, h.bare.body, h.bare.isOpen⟩
    unfold Block.receive
    rw [hb.fill]
    exact ⟨hb.params, hb.body, hb.isOpen⟩
  · rw [hself, hblock, Block.binding?_bind_receive, h.binding, h.regs_size]
    by_cases hw : w = v
    · subst hw
      rw [if_pos rfl, if_pos (by simp), List.idxOf_append_of_notMem hv]
      simp
    · rw [if_neg hw]
      by_cases hm : w ∈ vs
      · rw [if_pos hm, if_pos (by simp [hm]), List.idxOf_append_of_mem hm]
      · rw [if_neg hm, if_neg (by simp [hm, hw])]

end

/-- The fold over what the entry needs. -/
theorem foldl_bindSlot {f : Routine} (hb : (f.block entry).Bare) (h0 : entry < f.blocks.size)
    (slots : List Slot) {vs : List Var} (hn : vs.Nodup) :
    ∃ f', vs.foldl (Routine.bindSlot slots) (f, []) =
        (f', (vs.filter fun v => (slotOf? slots v).isNone).map f.varName) ∧
      Bound f slots (vs.filter fun v => (slotOf? slots v).isSome) f' := by
  have key := foldl_inv (Routine.bindSlot slots) (fun done (s : Routine × List String) =>
      s.2 = (done.filter fun v => (slotOf? slots v).isNone).map f.varName ∧
        Bound f slots (done.filter fun v => (slotOf? slots v).isSome) s.1) vs (f, [])
    ⟨rfl, bound_refl hb⟩ (by
      rintro done v rest ⟨f₁, missing⟩ hvs ⟨rfl, h₁⟩
      have hfresh : v ∉ done.filter fun v => (slotOf? slots v).isSome := by
        intro hm
        rw [hvs, List.nodup_append] at hn
        exact hn.2.2 v (List.mem_of_mem_filter hm) v (by simp) rfl
      cases hi : slotOf? slots v with
      | some i =>
        obtain ⟨f₂, hstep, h₂⟩ := h₁.bindSlot h0 hfresh hi _
        rw [hstep]
        simp only [List.filter_append, List.filter_singleton, hi]
        exact ⟨by simp, h₂⟩
      | none =>
        have hi' : slots.findIdx? (fun s => decide (s.var = v)) = none := hi
        have hname : f₁.varName v = f.varName v := by unfold Routine.varName; rw [h₁.vars]
        simp only [Routine.bindSlot, hi', List.filter_append, List.filter_singleton, hi]
        exact ⟨by simp [hname], by simpa using h₁⟩)
  exact ⟨_, Prod.ext rfl key.1, key.2⟩

/-- `f'` is `f` with the variables `vs` bound and the entry complete. -/
structure Entered (f : Routine) (slots : List Slot) (vs : List Var) (f' : Routine) : Prop where
  name : f'.name = f.name
  vars : f'.vars = f.vars
  route : f'.route = f.route
  size : f'.blocks.size = f.blocks.size
  regs : f'.regs.toList = f.regs.toList ++ vs.map fun v => { var := v, slot := slotOf? slots v }
  other : ∀ b, b ≠ entry → f'.block b = f.block b
  params : (f'.block entry).params = []
  body : (f'.block entry).body = []
  exit : (f'.block entry).exit = some (.jump f.route)
  binding : ∀ v, (f'.block entry).binding? v =
    if v ∈ vs then some ((f.regs.size + vs.idxOf v : Nat) : Reg) else (f.block entry).binding? v

theorem Bound.enter {f f' : Routine} {slots : List Slot} {vs : List Var} (h : Bound f slots vs f')
    (h0 : entry < f.blocks.size) :
    Entered f slots vs (f'.modifyBlock entry (·.add (.exit (.jump f'.route)))) := by
  have hself := Routine.block_modifyBlock_self (f := f') (by rw [h.size]; exact h0)
    (·.add (.exit (.jump f'.route)))
  refine ⟨h.name, h.vars, h.route, by simpa using h.size, h.regs, fun b hb => ?_, ?_, ?_, ?_,
    fun v => ?_⟩
  · rw [Routine.block_modifyBlock_ne (Ne.symm hb)]; exact h.other b hb
  · rw [hself]; exact h.bare.params
  · rw [hself]; exact h.bare.body
  · rw [hself, h.route]; rfl
  · rw [hself]; exact h.binding v

section Outcomes

variable {f : Routine} {n : Needs} {slots : List Slot}

/-- Slots for all that the entry needs: the entry is bound and goes on to the route. -/
theorem bindArguments_ok (hb : (f.block entry).Bare) (h0 : entry < f.blocks.size)
    (hn : (n.of entry).Nodup) (hs : ∀ v ∈ n.of entry, v ∈ slots.map Slot.var) :
    ∃ f', f.bindArguments n slots = .ok (f', none) ∧ Entered f slots (n.of entry) f' := by
  obtain ⟨f', hfold, hbound⟩ := foldl_bindSlot hb h0 slots hn
  have hall : (n.of entry).filter (fun v => (slotOf? slots v).isSome) = n.of entry :=
    List.filter_eq_self.mpr fun v hv => slotOf?_isSome.mpr (hs v hv)
  have hnone : (n.of entry).filter (fun v => (slotOf? slots v).isNone) = [] :=
    List.filter_eq_nil_iff.mpr fun v hv => by
      have := slotOf?_isSome.mpr (hs v hv)
      cases hsl : slotOf? slots v <;> simp_all
  rw [hall] at hbound
  rw [hnone] at hfold
  refine ⟨_, ?_, hbound.enter h0⟩
  have hopen : (f.block entry).isComplete = false := by simp [Block.isComplete, hb.isOpen]
  simp only [Routine.bindArguments, hopen, hfold]
  rfl

/-- Without a slot for something that the entry needs, the missing names are reported. -/
theorem bindArguments_missing (hb : (f.block entry).Bare) (h0 : entry < f.blocks.size)
    (hn : (n.of entry).Nodup) (hs : ¬ ∀ v ∈ n.of entry, v ∈ slots.map Slot.var) :
    ∃ f', f.bindArguments n slots = .ok (f', some { proc := f.name, missing :=
      ((n.of entry).filter fun v => (slotOf? slots v).isNone).map f.varName }) := by
  obtain ⟨f', hfold, hbound⟩ := foldl_bindSlot hb h0 slots hn
  have hopen : (f.block entry).isComplete = false := by simp [Block.isComplete, hb.isOpen]
  have hne : ((n.of entry).filter fun v => (slotOf? slots v).isNone).map f.varName ≠ [] := by
    simp only [not_forall] at hs
    obtain ⟨v, hv, hvs⟩ := hs
    intro hnil
    have : v ∈ (n.of entry).filter fun v => (slotOf? slots v).isNone :=
      List.mem_filter.mpr ⟨hv, by simp [slotOf?_eq_none.mpr hvs]⟩
    rw [List.map_eq_nil_iff.mp hnil] at this
    cases this
  refine ⟨f', ?_⟩
  generalize ((n.of entry).filter fun v => (slotOf? slots v).isNone).map f.varName =
    missing at hfold hne ⊢
  cases missing with
  | nil => exact absurd rfl hne
  | cons m ms =>
    simp only [Routine.bindArguments, hopen, hfold, hbound.name]
    rfl

end Outcomes

end ProcCompiler
