import ProcCompiler.Lowering.Layout
import ProcCompiler.Proofs.Lowering.SplitGraph
import ProcCompiler.Proofs.Outcome
/-!
# The layout of a routine whose operands are all known

A routine can be laid out along an order if its blocks know their operands, have exits, and jump to
blocks of the order only. The code of a block then stands at the block's offset, followed by the
code of the blocks after it.

* `flat_split`: the code and the offsets of a part of the order.
* `Layable.layout_eq`: the layout succeeds, and gives the resolved code.
-/
namespace ProcCompiler

namespace Instr

variable {ε ω ρ ρ' ℓ ℓ' : Type}

theorem mapReadM_eq_ok {f : ρ → Except ε ρ'} {g : ρ → ρ'} {x : Instr ω ρ ℓ}
    (h : ∀ o, x.read? = some o → f o = .ok (g o)) : x.mapReadM f = .ok (x.mapRead g) := by
  cases x with
  | action a =>
    cases a with
    | move out arg => rw [mapReadM, h arg rfl]; rfl
    | call fn out arg => rw [mapReadM, h arg rfl]; rfl
    | unknown code => rfl
  | exit e =>
    cases e with
    | jump t => rfl
    | branch c t u => rw [mapReadM, h c rfl]; rfl
    | ret => rfl

theorem mapLabelM_eq_ok [DecidableEq ℓ] {f : ℓ → Except ε ℓ'} {g : ℓ → ℓ'} {x : Instr ω ρ ℓ}
    (h : ∀ l ∈ x.labels, f l = .ok (g l)) : x.mapLabelM f = .ok (x.mapLabel g) := by
  cases x with
  | action a => rfl
  | exit e =>
    cases e with
    | jump t => rw [mapLabelM, h t (by simp [labels, Exit.labels])]; rfl
    | branch c t u =>
      have hmem : ∀ {l}, l ∈ (exit (.branch c t u) : Instr ω ρ ℓ).labels ↔ l = t ∨ l = u :=
        Exit.mem_labels (e := .branch c t u)
      rw [mapLabelM, h t (hmem.mpr (.inl rfl)), h u (hmem.mpr (.inr rfl))]
      rfl
    | ret => rfl

@[simp] theorem labels_mapRead [DecidableEq ℓ] (f : ρ → ρ') (x : Instr ω ρ ℓ) :
    (x.mapRead f).labels = x.labels := by
  cases x with
  | action a => rfl
  | exit e => exact Exit.labels_mapRead f e

end Instr

/-- What the layout asks of the blocks that it writes. -/
structure Routine.Layable (f : Routine) (order : List BlockId) : Prop where
  known : ∀ b ∈ order, (f.block b).Known
  exit : ∀ b ∈ order, ∃ e, (f.block b).exit = some e ∧ ∀ l ∈ e.labels, ∃ t ∈ order, l = (t : Label)

/-- The instruction with registers for operands and offsets for labels. -/
def Instr.resolved (cs : List Chunk) (x : BlockInstr) : Instr Reg Reg Int :=
  (x.mapRead Operand.regIndex).mapLabel fun l => (((offset? cs l).getD 0 : Nat) : Int)

@[simp] theorem Instr.read?_resolved (cs : List Chunk) (x : BlockInstr) :
    (x.resolved cs).read? = x.read?.map Operand.regIndex := by
  rcases x with (_ | _ | _) | (_ | _ | _) <;> rfl

@[simp] theorem Instr.write?_resolved (cs : List Chunk) (x : BlockInstr) :
    (x.resolved cs).write? = x.write? := by
  rcases x with (_ | _ | _) | _ <;> rfl

namespace Routine

/-- The code of the blocks, one after another. -/
def flat (f : Routine) (order : List BlockId) : List BlockInstr := (f.chunks order).flatMap (·.code)

/-- The code with registers for operands and offsets for labels. -/
def resolvedCode (f : Routine) (order : List BlockId) : List (Instr Reg Reg Int) :=
  (f.flat order).map (Instr.resolved (f.chunks order))

/-- The code in machine registers. -/
def placedCode (f : Routine) (order : List BlockId) : Bytecode :=
  (f.resolvedCode order).map fun x =>
    (x.mapRead (f.place (f.locals (f.resolvedCode order)))).mapWrite
      (f.place (f.locals (f.resolvedCode order)))

theorem flat_cons (f : Routine) (b : BlockId) (bs : List BlockId) :
    f.flat (b :: bs) = (f.block b).emit bs.head? ++ f.flat bs := by
  simp [flat, chunks]

/-- Where a part of the order is written: after some code, and its offsets are counted from
there. -/
theorem flat_split (f : Routine) (after : List BlockId) :
    ∀ done : List BlockId, ∃ code, f.flat (done ++ after) = code ++ f.flat after ∧
      ∀ l : Label, (∀ b ∈ done, (b : Label) ≠ l) →
        offset? (f.chunks (done ++ after)) l = (offset? (f.chunks after) l).map (code.length + ·)
  | [] => ⟨[], rfl, fun l _ => by simp⟩
  | b :: done => by
    obtain ⟨code, hcode, hoff⟩ := flat_split f after done
    refine ⟨(f.block b).emit (done ++ after).head? ++ code, ?_, fun l hl => ?_⟩
    · rw [List.cons_append, flat_cons, hcode, List.append_assoc]
    · rw [List.cons_append, chunks, offset?, if_neg (hl b (by simp)),
        hoff l fun c hc => hl c (by simp [hc]), Option.map_map, List.length_append]
      congr 1
      funext k
      exact (Nat.add_assoc _ _ _).symm

theorem offset?_isSome {f : Routine} {t : BlockId} :
    ∀ {order : List BlockId}, t ∈ order → (offset? (f.chunks order) (t : Label)).isSome
  | [], h => by cases h
  | b :: bs, h => by
    rw [chunks, offset?]
    split
    · rfl
    · rename_i hne
      rcases List.mem_cons.mp h with rfl | h
      · exact absurd rfl hne
      · simpa using offset?_isSome h

/-! ## The instructions that are written -/

/-- An instruction that can be resolved: its operand is known, its labels name blocks of the order,
and a call has one location. -/
structure Writable (order : List BlockId) (x : BlockInstr) : Prop where
  known : ∀ o, x.read? = some o → o.known?.isSome
  target : ∀ l ∈ x.labels, ∃ t ∈ order, l = (t : Label)
  oneLocation : ∀ fn out arg, x = .action (.call fn out arg) → arg = .reg out

theorem mem_emit {b : Block} {next : Option BlockId} {x : BlockInstr} (h : x ∈ b.emit next) :
    (∃ a ∈ b.body, ∃ c ∈ a.expand, x = .action c) ∨ ∃ e, b.exit = some e ∧ x = .exit e := by
  rw [Block.emit, List.mem_append] at h
  rcases h with h | h
  · obtain ⟨c, hc, rfl⟩ := List.mem_map.mp h
    obtain ⟨a, ha, hca⟩ := List.mem_flatMap.mp hc
    exact .inl ⟨a, ha, c, hca, rfl⟩
  · right
    unfold Block.emitExit at h
    split at h
    · cases h
    · rename_i l he
      split at h
      · cases h
      · rw [List.mem_singleton] at h
        exact ⟨_, he, h⟩
    · rename_i e _ he
      rw [List.mem_singleton] at h
      exact ⟨e, he, h⟩

theorem mem_flat {f : Routine} {x : BlockInstr} :
    ∀ {order : List BlockId}, x ∈ f.flat order → ∃ b ∈ order, ∃ next, x ∈ (f.block b).emit next
  | [], h => by cases h
  | b :: bs, h => by
    rw [flat_cons, List.mem_append] at h
    rcases h with h | h
    · exact ⟨b, by simp, _, h⟩
    · obtain ⟨c, hc, next, hx⟩ := mem_flat h
      exact ⟨c, by simp [hc], next, hx⟩

/-- The parts of an action read what the action reads, or the register that the first part wrote. -/
theorem writable_expand {order : List BlockId} {a c : Action Reg Operand} (hc : c ∈ a.expand)
    (ha : ∀ o, a.read? = some o → o.known?.isSome) : Writable order (.action c) := by
  refine ⟨fun o ho => ?_, fun l hl => (by cases hl), fun fn out arg heq => ?_⟩
  · cases a with
    | call fn out arg =>
      simp only [Action.expand] at hc
      split at hc
      · rw [List.mem_singleton] at hc; subst hc; exact ha o ho
      · simp only [List.mem_cons, List.not_mem_nil, or_false] at hc
        rcases hc with rfl | rfl
        · exact ha o ho
        · cases ho; rfl
    | move out arg => obtain rfl := List.mem_singleton.mp hc; exact ha o ho
    | unknown code => obtain rfl := List.mem_singleton.mp hc; exact ha o ho
  · cases heq
    cases a with
    | call fn' out' arg' =>
      simp only [Action.expand] at hc
      split at hc
      · rename_i harg
        rw [List.mem_singleton] at hc
        cases hc
        exact harg
      · simp only [List.mem_cons, List.not_mem_nil, or_false, reduceCtorEq, false_or] at hc
        cases hc
        rfl
    | move out arg => simp [Action.expand] at hc
    | unknown code => simp [Action.expand] at hc

theorem Layable.writable {f : Routine} {order : List BlockId} (h : f.Layable order) {x : BlockInstr}
    (hx : x ∈ f.flat order) : Writable order x := by
  obtain ⟨b, hb, next, hx⟩ := mem_flat hx
  rcases mem_emit hx with ⟨a, ha, c, hc, rfl⟩ | ⟨e, he, rfl⟩
  · exact writable_expand hc ((h.known b hb).body a ha)
  · obtain ⟨e', he', ht⟩ := h.exit b hb
    obtain rfl : e = e' := Option.some.inj (he.symm.trans he')
    exact ⟨(h.known b hb).exit e he, ht, fun _ _ _ heq => (by cases heq)⟩

/-! ## The layout -/

theorem resolve_eq (f : Routine) {order : List BlockId} {x : BlockInstr} (h : Writable order x)
    (pc : Nat) :
    f.resolve (f.chunks order) pc x = .ok (x.resolved (f.chunks order)) := by
  rw [resolve, Instr.mapReadM_eq_ok (g := Operand.regIndex)]
  · apply Instr.mapLabelM_eq_ok
    intro l hl
    obtain ⟨t, ht, rfl⟩ := h.target l (by simpa using hl)
    obtain ⟨k, hk⟩ := Option.isSome_iff_exists.mp (offset?_isSome (f := f) ht)
    rw [hk]
    rfl
  · intro o ho
    have := h.known o ho
    cases o with
    | param i => cases this
    | reg r => rfl
    | stray k => rfl

/-- The layout succeeds. -/
theorem Layable.layout_eq {f : Routine} {g : FlowGraph} (h : f.Layable g.order) :
    f.layout g = .ok (f.placedCode g.order, (f.locals (f.resolvedCode g.order)).length) := by
  have hcode : (f.flat g.order).zipIdx.mapM (fun a => f.resolve (f.chunks g.order) a.2 a.1) =
      .ok (f.resolvedCode g.order) := by
    rw [resolvedCode, mapM_eq_ok (y := fun a => Instr.resolved (f.chunks g.order) a.1) fun a ha =>
      f.resolve_eq (h.writable (List.fst_mem_of_mem_zipIdx ha)) a.2]
    conv_rhs => rw [← List.zipIdx_map_fst 0 (f.flat g.order), List.map_map]
    rfl
  show ((f.flat g.order).zipIdx.mapM fun a => f.resolve (f.chunks g.order) a.2 a.1).bind _ = _
  rw [hcode]
  rfl

end Routine

end ProcCompiler
