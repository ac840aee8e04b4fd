import Mathlib.Data.List.Forall2
import ProcCompiler.Proofs.Block.Receive
/-!
# What an arrival does to the operands of a block

When a register arrives, a parameter goes and the parameters after it move up. Every operand still
names what it named: the register that arrived, or the variable that it waits for, under its new
number. What arrived determines the block, so registers for distinct variables can arrive in any
order.

* `Block.Filled.operandAt?`: what becomes of a read that waited.
* `Block.Filled.unique`: what arrives determines the block.
* `Block.Received`: a block after one arrival, operand by operand.
* `Block.receive_comm`, `Block.receiveAll_perm`: the order of arrivals does not matter.
* `Block.receive_renumbers`: one arrival, two and many.
-/
namespace ProcCompiler

/-! ## What operands name -/

namespace Operand

variable {params : List Var} {o : Operand}

theorem ref_eq_reg {r : Reg} : o.ref params = .reg r ↔ o = .reg r := by
  cases o with
  | reg s => simp [ref]
  | stray k => simp [ref]
  | param i => cases h : params[i]? <;> simp [ref, h]

theorem ref_eq_stray {k : Nat} : o.ref params = .stray k ↔ o = .stray k := by
  cases o with
  | reg s => simp [ref]
  | stray j => simp [ref]
  | param i => cases h : params[i]? <;> simp [ref, h]

theorem ref_eq_var {v : Var} : o.ref params = .var v ↔ ∃ i, o = .param i ∧ params[i]? = some v := by
  cases o with
  | reg s => simp [ref]
  | stray k => simp [ref]
  | param i => cases h : params[i]? <;> simp [ref, h]

end Operand

namespace Block

theorem mem_code {b : Block} {x : Instr Reg Operand Label} :
    x ∈ b.code ↔ (∃ a ∈ b.body, x = .action a) ∨ ∃ e, b.exit = some e ∧ x = .exit e := by
  simp only [code, List.mem_append, List.mem_map, Option.mem_toList, eq_comm]

theorem action_mem_code {b : Block} {a : Action Reg Operand} (h : a ∈ b.body) :
    .action a ∈ b.code :=
  mem_code.mpr (.inl ⟨a, h, rfl⟩)

theorem exit_mem_code {b : Block} {e : Exit Operand Label} (h : b.exit = some e) :
    .exit e ∈ b.code :=
  mem_code.mpr (.inr ⟨e, h, rfl⟩)

/-- What the instruction at a place reads. -/
def operandAt? (b : Block) (i : Nat) : Option Operand := b.code[i]?.bind Instr.read?

/-- The code with references in place of operands. -/
def codeRefs (b : Block) : List (Instr Reg Ref Label) :=
  b.code.map (·.mapRead (Operand.ref b.params))

theorem codeRefs_eq (b : Block) :
    b.codeRefs = b.bodyRefs.map .action ++ b.exitRef.toList.map .exit := by
  unfold codeRefs code bodyRefs exitRef
  rw [List.map_append, List.map_map, List.map_map, List.map_map]
  cases b.exit <;> rfl

theorem getElem?_codeRefs (b : Block) (i : Nat) :
    b.codeRefs[i]?.bind Instr.read? = (b.operandAt? i).map (Operand.ref b.params) := by
  rw [codeRefs, List.getElem?_map, operandAt?]
  cases b.code[i]? with
  | none => rfl
  | some x => exact Instr.read?_mapRead x _

theorem Filled.codeRefs {b b' : Block} {σ : Var → Option Reg} (h : Filled b b' σ) :
    b'.codeRefs = b.codeRefs.map (·.mapRead (Ref.fill σ)) := by
  rw [codeRefs_eq, codeRefs_eq, h.body, h.exit, List.map_append, List.map_map, List.map_map]
  cases b.exitRef <;> rfl

/-- Each operand names what it named, or the register that arrived for it. -/
theorem Filled.ref_operandAt? {b b' : Block} {σ : Var → Option Reg} (h : Filled b b' σ) (i : Nat) :
    (b'.operandAt? i).map (Operand.ref b'.params) = (b.operandAt? i).map fun o =>
      (o.ref b.params).fill σ := by
  have hb := b.getElem?_codeRefs i
  rw [← getElem?_codeRefs, h.codeRefs, List.getElem?_map]
  have hread : ((b.codeRefs[i]?.map (·.mapRead (Ref.fill σ))).bind Instr.read?) =
      (b.codeRefs[i]?.bind Instr.read?).map (Ref.fill σ) := by
    cases b.codeRefs[i]? with
    | none => rfl
    | some x => exact Instr.read?_mapRead x _
  rw [hread, hb, Option.map_map]
  rfl

/-- A read that waited for a variable is a read of the register that arrived. -/
theorem Filled.operandAt? {b b' : Block} {σ : Var → Option Reg} (h : Filled b b' σ) {i : Nat}
    {o : Operand} {v : Var} {r : Reg} (ho : b.operandAt? i = some o) (hv : o.ref b.params = .var v)
    (hr : σ v = some r) :
    b'.operandAt? i = some (.reg r) := by
  have hcode := h.ref_operandAt? i
  rw [ho, Option.map_some, hv, show (Ref.var v).fill σ = .reg r by simp [Ref.fill, hr]] at hcode
  obtain ⟨o', ho', href⟩ := Option.map_eq_some_iff.mp hcode
  rw [ho', Operand.ref_eq_reg.mp href]

end Block

/-! ## What arrives determines the block -/

/-- The operand that a reference stands for among the given parameters. -/
def Ref.among (params : List Var) : Ref → Operand
  | .reg r => .reg r
  | .var v => .param (params.idxOf v)
  | .stray k => .stray k
  | .loose => .param params.length

theorem Operand.among_ref {params : List Var} (hn : params.Nodup) {o : Operand}
    (h : o.ref params ≠ .loose) :
    (o.ref params).among params = o := by
  cases o with
  | reg r => rfl
  | stray k => rfl
  | param i =>
    cases hi : params[i]? with
    | none => simp [ref, hi] at h
    | some v =>
      obtain ⟨hlt, rfl⟩ := List.getElem?_eq_some_iff.mp hi
      simp only [ref, hi, Ref.among, hn.idxOf_getElem]

namespace Block

variable {b b₁ b₂ : Block} {σ : Var → Option Reg}

theorem Tight.body_eq (h : b.Tight) (hn : b.params.Nodup) :
    b.bodyRefs.map (·.mapRead (Ref.among b.params)) = b.body :=
  body_of_refs fun a ha o ho => Operand.among_ref hn fun hl => h.body _ (List.mem_map_of_mem ha) (by
    rw [Action.read?_mapRead, ho, Option.map_some, hl])

theorem Tight.exit_eq (h : b.Tight) (hn : b.params.Nodup) :
    b.exitRef.map (·.mapRead (Ref.among b.params)) = b.exit :=
  exit_of_refs fun e he o ho => Operand.among_ref hn fun hl =>
    h.exit _ (Option.mem_map_of_mem _ he) (by
    rw [Exit.read?_mapRead, ho, Option.map_some, hl])

/-- What arrives in a block determines the block. -/
theorem Filled.unique (h₁ : Filled b b₁ σ) (h₂ : Filled b b₂ σ) (hn : b.params.Nodup)
    (ht : b.Tight) : b₁ = b₂ := by
  have hparams : b₁.params = b₂.params := h₁.params.trans h₂.params.symm
  have hn₁ : b₁.params.Nodup := h₁.params ▸ hn.filter _
  have hn₂ : b₂.params.Nodup := h₂.params ▸ hn.filter _
  have hbody : b₁.body = b₂.body := by
    rw [← (h₁.tight ht).body_eq hn₁, ← (h₂.tight ht).body_eq hn₂, h₁.body, h₂.body, hparams]
  have hexit : b₁.exit = b₂.exit := by
    rw [← (h₁.tight ht).exit_eq hn₁, ← (h₂.tight ht).exit_eq hn₂, h₁.exit, h₂.exit, hparams]
  have hbindings : b₁.bindings = b₂.bindings :=
    Std.ExtTreeMap.ext_getElem? fun v => (h₁.binding v).trans (h₂.binding v).symm
  cases b₁
  cases b₂
  cases hparams
  cases hbody
  cases hexit
  cases hbindings
  rfl

end Block

/-! ## One arrival -/

/-- What an operand among `params` is among `params'`, after `v` arrived in `r`. -/
inductive Operand.Settles (params params' : List Var) (v : Var) (r : Reg) :
    Operand → Operand → Prop where
  | arrived {i : Nat} (hi : params[i]? = some v) : Settles params params' v r (.param i) (.reg r)
  | waits {i j : Nat} {w : Var} (hw : w ≠ v) (hi : params[i]? = some w)
      (hj : params'[j]? = some w) :
      Settles params params' v r (.param i) (.param j)
  | reg (s : Reg) : Settles params params' v r (.reg s) (.reg s)
  | stray (k : Nat) : Settles params params' v r (.stray k) (.stray k)

/-- An instruction after `v` arrived in `r`: the same but for what it reads. -/
structure Instr.Settles (params params' : List Var) (v : Var) (r : Reg)
    (x x' : Instr Reg Operand Label) : Prop where
  rest : x'.mapRead (fun _ => ()) = x.mapRead fun _ => ()
  read : Option.Rel (Operand.Settles params params' v r) x.read? x'.read?

namespace Block

/-- Every operand that is a parameter is one of the block's. -/
def Numbered (b : Block) : Prop :=
  ∀ x ∈ b.code, ∀ i, x.read? = some (.param i) → i < b.params.length

/-- The block `b` after `v` arrived in `r`. -/
structure Received (b : Block) (v : Var) (r : Reg) (b' : Block) : Prop where
  params : b'.params = b.params.filter (· ≠ v)
  nodup : b'.params.Nodup
  code : List.Forall₂ (Instr.Settles b.params b'.params v r) b.code b'.code
  binding_self : b'.binding? v = some ((b.binding? v).getD r)
  binding_other : ∀ w, w ≠ v → b'.binding? w = b.binding? w

theorem Numbered.ref_ne_loose {b : Block} (h : b.Numbered) {x : Instr Reg Operand Label}
    (hx : x ∈ b.code) {o : Operand} (ho : x.read? = some o) : o.ref b.params ≠ .loose := by
  cases o with
  | reg s => simp [Operand.ref]
  | stray k => simp [Operand.ref]
  | param i => simp [Operand.ref, List.getElem?_eq_getElem (h x hx i ho)]

theorem Numbered.tight {b : Block} (h : b.Numbered) : b.Tight where
  body a ha := by
    obtain ⟨c, hc, rfl⟩ := List.mem_map.mp ha
    rw [Action.read?_mapRead]
    intro hl
    obtain ⟨o, ho, href⟩ := Option.map_eq_some_iff.mp hl
    exact h.ref_ne_loose (action_mem_code hc) ho href
  exit e he := by
    obtain ⟨y, hy, rfl⟩ := Option.map_eq_some_iff.mp he
    rw [Exit.read?_mapRead]
    intro hl
    obtain ⟨o, ho, href⟩ := Option.map_eq_some_iff.mp hl
    exact h.ref_ne_loose (exit_mem_code hy) ho href

/-- References say what becomes of an operand. -/
theorem settles_of_ref {params params' : List Var} {v : Var} {r : Reg} {o o' : Operand}
    (hl : o.ref params ≠ .loose)
    (h : o'.ref params' = (o.ref params).fill (Function.update (fun _ => none) v (some r))) :
    o.Settles params params' v r o' := by
  cases o with
  | reg s =>
    rw [Operand.ref_eq_reg.mp h]
    exact .reg s
  | stray k =>
    rw [Operand.ref_eq_stray.mp h]
    exact .stray k
  | param i =>
    cases hi : params[i]? with
    | none => simp [Operand.ref, hi] at hl
    | some w =>
      rw [Operand.ref_eq_var.mpr ⟨i, rfl, hi⟩] at h
      by_cases hw : w = v
      · subst hw
        simp only [Ref.fill, Function.update_self] at h
        rw [Operand.ref_eq_reg.mp h]
        exact .arrived hi
      · simp only [Ref.fill, Function.update_of_ne hw] at h
        obtain ⟨j, rfl, hj⟩ := Operand.ref_eq_var.mp h
        exact .waits hw hi hj

/-- So they do for an instruction. -/
theorem instr_settles_of_ref {params params' : List Var} {v : Var} {r : Reg}
    {x x' : Instr Reg Operand Label} (hl : ∀ o, x.read? = some o → o.ref params ≠ .loose)
    (h : x'.mapRead (Operand.ref params') =
      (x.mapRead (Operand.ref params)).mapRead
      (Ref.fill (Function.update (fun _ => none) v (some r)))) :
    x.Settles params params' v r x' where
  rest := by
    have hrest := congrArg (Instr.mapRead fun _ => ()) h
    simpa only [Instr.mapRead_mapRead] using hrest
  read := by
    have hread := congrArg Instr.read? h
    simp only [Instr.read?_mapRead, Option.map_map] at hread
    cases ho : x.read? with
    | none =>
      rw [ho, Option.map_none, Option.map_eq_none_iff] at hread
      rw [hread]
      exact .none
    | some o =>
      rw [ho, Option.map_some, Option.map_eq_some_iff] at hread
      obtain ⟨o', ho', href⟩ := hread
      rw [ho']
      exact .some (settles_of_ref (hl o ho) href)

/-- One arrival, operand by operand. -/
theorem received_receive {b : Block} (hn : b.params.Nodup) (hb : b.Numbered) (v : Var) (r : Reg) :
    b.Received v r (b.receive v r) := by
  have hf := filled_receive hn v r
  have hparams : (b.receive v r).params = b.params.filter (· ≠ v) := by
    rw [hf.params]
    apply List.filter_congr
    intro w _
    by_cases hw : w = v <;> simp [hw]
  refine ⟨hparams, hparams ▸ hn.filter _, ?_, ?_, fun w hw => ?_⟩
  · have hcode : List.Forall₂ (fun x x' : Instr Reg Operand Label =>
          x'.mapRead (Operand.ref (b.receive v r).params) =
            (x.mapRead (Operand.ref b.params)).mapRead
              (Ref.fill (Function.update (fun _ => none) v (some r))))
        b.code (b.receive v r).code := by
      have hrefs := hf.codeRefs
      unfold codeRefs at hrefs
      rw [List.map_map, ← List.forall₂_eq_eq_eq, List.forall₂_map_left_iff,
        List.forall₂_map_right_iff] at hrefs
      exact hrefs.flip
    refine ((List.forall₂_and_left _ _).mpr ⟨fun _ hx => hx, hcode⟩).imp fun x x' h => ?_
    exact instr_settles_of_ref (fun o ho => hb.ref_ne_loose h.1 ho) h.2
  · rw [hf.binding]
    cases b.binding? v <;> simp
  · rw [hf.binding, Function.update_of_ne hw, Option.or_none]

/-! ## Arrivals in any order -/

theorem receive_comm {b : Block} (hn : b.params.Nodup) (ht : b.Tight) {u v : Var} (huv : u ≠ v)
    (r s : Reg) :
    (b.receive u r).receive v s = (b.receive v s).receive u r := by
  have huv' := (filled_receive hn u r).receive hn (v := v) (by simp [huv.symm]) s
  have hvu := (filled_receive hn v s).receive hn (v := u) (by simp [huv]) r
  rw [Function.update_comm huv] at huv'
  exact huv'.unique hvu hn ht

/-- Two orders differ by exchanges of neighbours. -/
theorem receiveAll_perm {arrivals arrivals' : List (Var × Reg)} (hp : arrivals.Perm arrivals')
    {b : Block} (hn : b.params.Nodup) (ht : b.Tight) (hd : (arrivals.map Prod.fst).Nodup) :
    b.receiveAll arrivals = b.receiveAll arrivals' := by
  induction hp generalizing b with
  | nil => rfl
  | cons a _ ih =>
    have hf := filled_receive hn a.1 a.2
    exact ih (hf.params ▸ hn.filter _) (hf.tight ht) (List.nodup_cons.mp hd).2
  | swap a c l =>
    have hne : c.1 ≠ a.1 := by
      simp only [List.map_cons, List.nodup_cons, List.mem_cons, not_or] at hd
      exact hd.1.1
    exact congrArg (receiveAll · l) (receive_comm hn ht hne c.2 a.2)
  | trans h₁ _ ih₁ ih₂ => exact (ih₁ hn ht hd).trans (ih₂ hn ht ((h₁.map Prod.fst).nodup_iff.mp hd))

/-- A register that arrives takes the place of its parameter wherever the block reads it, the other
parameters move up with their reads, and the block binds the variable if it did not. Arrivals for
distinct variables commute, so any number of them gives the same block in every order. -/
theorem receive_renumbers {b : Block} (hn : b.params.Nodup) (hb : b.Numbered) :
    (∀ v r, b.Received v r (b.receive v r)) ∧
    (∀ u v r s, u ≠ v → (b.receive u r).receive v s = (b.receive v s).receive u r) ∧
    ∀ arrivals arrivals' : List (Var × Reg), (arrivals.map Prod.fst).Nodup →
      arrivals.Perm arrivals' →
      b.receiveAll arrivals = b.receiveAll arrivals' :=
  ⟨received_receive hn hb, fun _ _ r s huv => receive_comm hn hb.tight huv r s,
    fun _ _ hd hp => receiveAll_perm hp hn hb.tight hd⟩

/-- A block that reads its three parameters out of order, one of them twice, and binds one of them
itself. -/
def shuffledReads : Block where
  params := [3, 0, 7]
  body := [.move 4 (.param 2), .call 1 5 (.param 0), .move 6 (.reg 2), .move 8 (.param 2)]
  exit := some (.branch (.param 1) 2 3)
  bindings := .ofList [((0 : Var), (5 : Reg))]

example : (shuffledReads.receive 3 10).receive 0 11 =
    { params := [7]
      body := [.move 4 (.param 0), .call 1 5 (.reg 10), .move 6 (.reg 2), .move 8 (.param 0)]
      exit := some (.branch (.reg 11) 2 3)
      bindings := .ofList [((0 : Var), (5 : Reg)), (3, 10)] } := by
  decide +kernel

theorem numbered_shuffledReads : shuffledReads.Numbered := by
  have h : (shuffledReads.code.all fun x => x.read?.all fun o => o.paramIndex < 3) = true := by
    decide
  intro x hx i hi
  have hx := List.all_eq_true.mp h x hx
  rw [hi] at hx
  exact Int.ofNat_lt.mp (of_decide_eq_true hx)

theorem receive_renumbers_shuffledReads : shuffledReads.params.Nodup ∧ shuffledReads.Numbered ∧
    (∀ v r, shuffledReads.Received v r (shuffledReads.receive v r)) ∧
    (∀ u v r s, u ≠ v →
      (shuffledReads.receive u r).receive v s = (shuffledReads.receive v s).receive u r) ∧
    ∀ arrivals arrivals' : List (Var × Reg), (arrivals.map Prod.fst).Nodup →
      arrivals.Perm arrivals' →
      shuffledReads.receiveAll arrivals = shuffledReads.receiveAll arrivals' :=
  ⟨by decide, numbered_shuffledReads, receive_renumbers (by decide) numbered_shuffledReads⟩

end Block

end ProcCompiler
