import ProcCompiler.Bytecode.Verify
import ProcCompiler.Proofs.Lowering.Layout
/-!
# Laid-out code has no defect

The code of a routine ends in an exit, jumps to its own instructions, and calls on one location; its
locals are numbered from 0 without gaps, and its argument registers are slots of the arguments. So
verification has nothing to refuse.

* `flat_ends`, `offset_lt`: where the code ends and where its jumps lead.
* `Layable.labels_lt`, `Layable.getLast?_placedCode`: the same of the code in machine registers.
* `Layable.verify_ok`: verification accepts the laid-out code.
-/
namespace ProcCompiler

namespace Instr

variable {ω ω' ρ ρ' ℓ ℓ' : Type} (x : Instr ω ρ ℓ)

@[simp] theorem read?_mapWrite (f : ω → ω') : (x.mapWrite f).read? = x.read? := by
  cases x with
  | action a => exact Action.read?_mapWrite f a
  | exit e => rfl

theorem write?_mapWrite (f : ω → ω') : (x.mapWrite f).write? = x.write?.map f := by
  cases x with
  | action a => exact Action.write?_mapWrite f a
  | exit e => rfl

@[simp] theorem labels_mapWrite [DecidableEq ℓ] (f : ω → ω') :
    (x.mapWrite f).labels = x.labels := by
  cases x <;> rfl

theorem mem_labels_mapLabel [DecidableEq ℓ] [DecidableEq ℓ'] (f : ℓ → ℓ') {l : ℓ'} :
    l ∈ (x.mapLabel f).labels ↔ ∃ k ∈ x.labels, l = f k := by
  cases x with
  | action a => simp [mapLabel, labels]
  | exit e => exact Exit.mem_labels_mapLabel

end Instr

namespace Routine

/-- The last block writes its exit: no block follows that it could fall through to. -/
theorem emit_ends {b : Block} {e : Exit Operand Label} (he : b.exit = some e) :
    b.emit none = (b.body.flatMap Action.expand).map .action ++ [.exit e] := by
  unfold Block.emit Block.emitExit
  rw [he]
  cases e <;> rfl

/-- The code of complete blocks ends in an exit. -/
theorem flat_ends {f : Routine} :
    ∀ order : List BlockId, order ≠ [] → (∀ b ∈ order, ∃ e, (f.block b).exit = some e) →
      ∃ code e, f.flat order = code ++ [.exit e]
  | [], h, _ => absurd rfl h
  | [b], _, hx => by
    obtain ⟨e, he⟩ := hx b (by simp)
    have hflat : f.flat [b] = (f.block b).emit none := by rw [flat_cons]; exact List.append_nil _
    exact ⟨_, e, hflat.trans (emit_ends he)⟩
  | b :: c :: bs, _, hx => by
    obtain ⟨code, e, hcode⟩ := flat_ends (c :: bs) (by simp) fun d hd => hx d (by simp [hd])
    exact ⟨_, e, by rw [flat_cons, hcode, ← List.append_assoc]⟩

variable {f : Routine} {order : List BlockId}

/-- A jump leads to an instruction of the code. -/
theorem Layable.offset_lt (h : f.Layable order) {t : BlockId} (ht : t ∈ order) :
    (offset? (f.chunks order) (t : Label)).getD 0 < (f.flat order).length := by
  obtain ⟨done, rest, rfl, hfresh⟩ := List.eq_append_cons_of_mem ht
  obtain ⟨code, hcode, hoff⟩ := f.flat_split (t :: rest) done
  have hends := flat_ends (f := f) (t :: rest) (by simp) fun b hb =>
    let ⟨e, he, _⟩ := h.exit b (by simp [List.mem_cons.mp hb])
    ⟨e, he⟩
  obtain ⟨code', e, hcode'⟩ := hends
  have hne : ∀ b ∈ done, (b : Label) ≠ (t : Label) := fun b hb heq =>
    hfresh (Int.ofNat.inj heq ▸ hb)
  rw [hoff _ hne, hcode, hcode']
  simp [chunks, offset?]

/-- A register of the code is a slot or has its place among the locals. -/
theorem mem_locals {code : List (Instr Reg Reg Int)} {x : Instr Reg Reg Int} (hx : x ∈ code)
    {r : Reg} (hr : r ∈ operands x) (hs : f.slot? r = none) : r ∈ f.locals code := by
  rw [locals, List.mem_eraseDups, List.mem_filter]
  exact ⟨List.mem_flatMap.mpr ⟨x, hx, hr⟩, by simp [hs]⟩

/-- The register's place is one that the frame or the arguments have. -/
theorem registerDefect?_place {code : List (Instr Reg Reg Int)} {p : Procedure}
    (hlocals : p.locals = (f.locals code).length)
    (hslot : ∀ r i, f.slot? r = some i → i < p.args.length) {x : Instr Reg Reg Int} (hx : x ∈ code)
    {r : Reg} (hr : r ∈ operands x) (pc : Nat) :
    p.registerDefect? pc (f.place (f.locals code) r) = none := by
  unfold place
  cases hs : f.slot? r with
  | some i =>
    have := hslot r i hs
    simp [Procedure.registerDefect?, Procedure.inRange, this]
  | none =>
    have := List.idxOf_lt_length_iff.mpr (mem_locals hx hr hs)
    simp [Procedure.registerDefect?, Procedure.inRange, hlocals, this]

theorem length_placedCode (f : Routine) (order : List BlockId) :
    (f.placedCode order).length = (f.flat order).length := by
  simp [placedCode, resolvedCode]

/-- The labels of the laid-out code are offsets in it. -/
theorem Layable.labels_lt (h : f.Layable order) {x : Instruction} (hx : x ∈ f.placedCode order)
    {l : Int} (hl : l ∈ x.labels) : 0 ≤ l ∧ l < (f.placedCode order).length := by
  obtain ⟨y, hy, rfl⟩ := List.mem_map.mp hx
  obtain ⟨z, hz, rfl⟩ := List.mem_map.mp hy
  rw [Instr.labels_mapWrite, Instr.labels_mapRead, Instr.resolved, Instr.mem_labels_mapLabel] at hl
  obtain ⟨k, hk, rfl⟩ := hl
  rw [Instr.labels_mapRead] at hk
  obtain ⟨t, ht, rfl⟩ := (h.writable hz).target k hk
  rw [length_placedCode]
  exact ⟨Int.natCast_nonneg _, Int.ofNat_lt.mpr (h.offset_lt ht)⟩

/-- The laid-out code ends in an exit. -/
theorem Layable.getLast?_placedCode (h : f.Layable order) (hne : order ≠ []) :
    ∃ e, (f.placedCode order).getLast? = some (.exit e) := by
  obtain ⟨code, e, hflat⟩ := flat_ends order hne fun b hb =>
    let ⟨e, he, _⟩ := h.exit b hb
    ⟨e, he⟩
  rw [placedCode, resolvedCode, hflat]
  simp [Instr.resolved, Instr.mapRead, Instr.mapLabel, Instr.mapWrite]

/-- An instruction of the laid-out code has no defect. -/
theorem Layable.instrDefect?_eq_none (h : f.Layable order) {p : Procedure}
    (hcode : p.code = f.placedCode order)
    (hlocals : p.locals = (f.locals (f.resolvedCode order)).length)
    (hslot : ∀ r i, f.slot? r = some i → i < p.args.length) (pc : Nat) {x : Instruction}
    (hx : x ∈ f.placedCode order) : p.instrDefect? pc x = none := by
  have hlabels : x.labels.find? (fun l => !Procedure.inRange l p.code.length) = none := by
    rw [List.find?_eq_none]
    intro l hl
    have := h.labels_lt hx hl
    simp [Procedure.inRange, hcode, this]
  obtain ⟨y, hy, rfl⟩ := List.mem_map.mp hx
  have hdefect : ∀ {r}, r ∈ operands y →
      p.registerDefect? pc (f.place (f.locals (f.resolvedCode order)) r) = none := fun hr =>
    registerDefect?_place hlocals hslot hy hr pc
  obtain ⟨z, hz, rfl⟩ := List.mem_map.mp hy
  have hw := h.writable hz
  generalize hpl : f.place (f.locals (f.resolvedCode order)) = pl at hdefect hlabels ⊢
  have hwrite : (((z.resolved (f.chunks order)).mapRead pl).mapWrite pl).write?.bind
      (p.registerDefect? pc) = none := by
    rw [Instr.write?_mapWrite, Instr.write?_mapRead]
    cases hr : (z.resolved (f.chunks order)).write? with
    | none => rfl
    | some r => exact hdefect (by simp [operands, hr])
  have hread : (((z.resolved (f.chunks order)).mapRead pl).mapWrite pl).read?.bind
      (p.registerDefect? pc) = none := by
    rw [Instr.read?_mapWrite, Instr.read?_mapRead]
    cases hr : (z.resolved (f.chunks order)).read? with
    | none => rfl
    | some r => exact hdefect (by simp [operands, hr])
  unfold Procedure.instrDefect?
  rw [hlabels, hwrite, hread]
  rcases z with (_ | ⟨fn, out, arg⟩ | _) | e
  · rfl
  · have := hw.oneLocation fn out arg rfl
    subst this
    exact if_pos rfl
  · rfl
  · rfl

/-- Verification accepts the laid-out code. -/
theorem Layable.verify_ok (h : f.Layable order) (hne : order ≠ []) {p : Procedure}
    (hcode : p.code = f.placedCode order)
    (hlocals : p.locals = (f.locals (f.resolvedCode order)).length)
    (hslot : ∀ r i, f.slot? r = some i → i < p.args.length) : p.verify = .ok () := by
  obtain ⟨e, hlast⟩ := h.getLast?_placedCode hne
  rw [← hcode] at hlast
  have hnone : p.defect? = none := by
    unfold Procedure.defect?
    rw [hlast]
    refine (if_pos rfl).trans ?_
    rw [List.findSome?_eq_none_iff]
    rintro ⟨x, pc⟩ hx
    exact h.instrDefect?_eq_none hcode hlocals hslot pc (hcode ▸ List.fst_mem_of_mem_zipIdx hx)
  rw [Procedure.verify, hnone]

end Routine

end ProcCompiler
