import ProcCompiler.Proofs.Routine.Builder
/-!
# The calls that lowering makes

Lowering grows a routine by the calls that its author used: it creates the exit and the blocks on
edges, reads and binds in them, and completes the entry with a jump. The passes are written with the
blocks that come out of this. Here they are written with the calls, each of which may be refused,
and come to the same: no call that lowering makes is refused.

* `Build.result`: what a computation comes to.
* `Build.edge_eq`: the block on an edge.
* `Build.result_addExit`, `Build.result_splitJoins`, `Build.result_bindArguments`: the passes.
-/
namespace ProcCompiler

/-! ## The last block and the last register -/

theorem modify_push_size {α : Type} (xs : Array α) (x : α) (change : α → α) :
    (xs.push x).modify xs.size change = xs.push (change x) := by
  refine Array.ext_getElem? fun i => ?_
  rw [Array.getElem?_modify, Array.getElem?_push, Array.getElem?_push]
  by_cases hi : i = xs.size
  · simp [hi]
  · simp [hi, Ne.symm hi]

/-- A change that does nothing to the last entry is one to the entries before. -/
theorem modify_push {α : Type} (xs : Array α) {x : α} {change : α → α} (h : change x = x)
    (i : Nat) :
    (xs.push x).modify i change = (xs.modify i change).push x := by
  refine Array.ext_getElem? fun j => ?_
  rw [Array.getElem?_modify, Array.getElem?_push, Array.getElem?_push, Array.getElem?_modify,
    Array.size_modify]
  by_cases hj : j = xs.size
  · simp [hj, h]
  · simp [hj]

namespace Routine

theorem modifyBlock_pushBlock (f : Routine) (b : Block) (change : Block → Block) :
    (f.pushBlock b).modifyBlock f.blocks.size change = f.pushBlock (change b) := by
  simp only [pushBlock, modifyBlock, modify_push_size]

/-- Two changes of a block are one. -/
theorem modifyBlock_modifyBlock (f : Routine) (b : BlockId) (change change' : Block → Block) :
    (f.modifyBlock b change).modifyBlock b change' = f.modifyBlock b (change' ∘ change) := by
  have hmodify : (f.blocks.modify b change).modify b change' =
      f.blocks.modify b (change' ∘ change) := by
    refine Array.ext_getElem? fun i => ?_
    rw [Array.getElem?_modify, Array.getElem?_modify, Array.getElem?_modify]
    split <;> simp
  rw [modifyBlock, modifyBlock, hmodify, modifyBlock]

theorem find?_pushBlock (f : Routine) (b : Block) :
    (f.pushBlock b).find? (f.blocks.size : Label) = some f.blocks.size :=
  find?_natCast (by simp)

/-- A register stands for an argument slot from now on. -/
def assignSlot (f : Routine) (r : Reg) (slot : Nat) : Routine :=
  { f with regs := f.regs.modify r.toNat fun x => { x with slot := some slot } }

theorem assignSlot_pushReg (f : Routine) (v : Var) (slot : Nat) :
    (f.pushReg { var := v }).assignSlot f.regs.size slot =
      f.pushReg { var := v, slot := some slot } := by
  simp only [pushReg, assignSlot, Int.toNat_natCast, modify_push_size]

end Routine

namespace Build

/-! ## What a computation comes to -/

variable {α β : Type}

/-- The routine that comes out and the answer, or the violation. -/
def result (x : Build α) (f : Routine) : Except Violation (Routine × α) :=
  match x f with
  | .ok a f => .ok (f, a)
  | .error e _ => .error e

theorem result_of_ok {x : Build α} {f f' : Routine} {a : α} (h : x f = .ok a f') :
    x.result f = .ok (f', a) := by
  rw [result, h]

theorem bind_of_ok {x : Build α} {k : α → Build β} {f f' : Routine} {a : α} (h : x f = .ok a f') :
    (x >>= k) f = k a f' := by
  simp only [bind, EStateM.bind, h]

theorem result_bind_of_ok {x : Build α} {k : α → Build β} {f f' : Routine} {a : α}
    (h : x f = .ok a f') : (x >>= k).result f = (k a).result f' := by
  rw [result, bind_of_ok h, result]

theorem result_bind (x : Build α) (k : α → Build β) (f : Routine) :
    (x >>= k).result f = x.result f >>= fun p => (k p.2).result p.1 := by
  simp only [result, bind, EStateM.bind]
  cases x f <;> rfl

/-- A loop whose steps come to those of another one comes to the same. -/
theorem result_foldlM {step : β → α → Build β}
    {step' : Routine × β → α → Except Violation (Routine × β)}
    (h : ∀ s a f, (step s a).result f = step' (f, s) a) (as : List α) (s : β) (f : Routine) :
    (as.foldlM step s).result f = as.foldlM step' (f, s) := by
  induction as generalizing s f with
  | nil => rfl
  | cons a as ih =>
    rw [List.foldlM_cons, List.foldlM_cons, result_bind, h]
    cases step' (f, s) a with
    | error e => rfl
    | ok p => exact ih p.2 p.1

/-! ## Calls on the last block -/

section

variable {f : Routine} {b : Block}

theorem read_pushBlock (v : Var) : read f.blocks.size v (f.pushBlock b) =
    .ok (b.read v).1 (f.pushBlock (b.read v).2) := by
  simp only [read_eq, Routine.find?_pushBlock, Routine.block_pushBlock_self,
    Routine.modifyBlock_pushBlock]

theorem writeReg_pushBlock (h : b.isComplete = false) (v : Var) (r : Reg) :
    writeReg f.blocks.size v r (f.pushBlock b) = .ok () (f.pushBlock (b.bind v r)) := by
  simp only [writeReg_eq, Routine.find?_pushBlock, Routine.block_pushBlock_self, h,
    Routine.modifyBlock_pushBlock, Bool.false_eq_true, if_false]

theorem add_pushBlock (h : b.isComplete = false) (x : Instr Reg Operand Label) :
    add f.blocks.size x (f.pushBlock b) = .ok () (f.pushBlock (b.add x)) := by
  simp only [add_eq, Routine.find?_pushBlock, Routine.block_pushBlock_self, h,
    Routine.modifyBlock_pushBlock, Bool.false_eq_true, if_false]

end

/-! ## The exit -/

/-- Creates the exit, leads every return of a reachable block to it, and returns from it. -/
def addExit (g : FlowGraph) : Build BlockId := do
  let exit ← createBlock
  modify (·.redirectReturns exit g.order)
  ret exit
  return exit

/-- The exit has no return until the end, so it makes no difference when it is created. -/
theorem redirectReturns_pushBlock (exit : BlockId) (bs : List BlockId) (f : Routine) :
    (f.pushBlock {}).redirectReturns exit bs = (f.redirectReturns exit bs).pushBlock {} := by
  induction bs generalizing f with
  | nil => rfl
  | cons b bs ih =>
    have hstep : (f.pushBlock {}).modifyBlock b (·.redirectReturn exit) =
        (f.modifyBlock b (·.redirectReturn exit)).pushBlock {} := by
      simp only [Routine.pushBlock, Routine.modifyBlock]
      rw [modify_push _ rfl]
    simp only [Routine.redirectReturns, List.foldl_cons, hstep] at ih ⊢
    exact ih _

theorem result_addExit (g : FlowGraph) (f : Routine) :
    (addExit g).result f = .ok (f.addExit g) := by
  let single := f.redirectReturns f.blocks.size g.order
  have hsize : f.blocks.size = single.blocks.size :=
    (Routine.redirectReturns_spec f f.blocks.size g.order).1.symm
  have hcreate : createBlock f = .ok f.blocks.size (f.pushBlock {}) := rfl
  have hredirect : (modify (·.redirectReturns f.blocks.size g.order) : Build PUnit)
      (f.pushBlock {}) = .ok ⟨⟩ (single.pushBlock {}) :=
    congrArg _ (redirectReturns_pushBlock f.blocks.size g.order f)
  have hret : ret f.blocks.size (single.pushBlock {}) =
      .ok () (single.pushBlock { exit := some .ret }) := by
    rw [hsize]
    exact add_pushBlock rfl _
  refine result_of_ok ?_
  rw [addExit, bind_of_ok hcreate, bind_of_ok hredirect, bind_of_ok hret]
  rfl

/-! ## The blocks on edges -/

/-- One variable in the block on an edge: what comes along it moves into the shared register. -/
def carry (b : BlockId) (v : Var) (r : Reg) : Build Unit := do
  let o ← read b v
  writeReg b v r
  add b (.action (.move r o))

/-- Makes the block on an edge. -/
def edge (carried : List (Var × Reg)) (target : BlockId) : Build BlockId := do
  let b ← createBlock
  carried.forM fun x => carry b x.1 x.2
  jump b target
  return b

/-- The block on an edge before its jump. -/
def openEdge (carried : List (Var × Reg)) : Block where
  params := carried.map Prod.fst
  body := (carried.map Prod.snd).zipIdx.map fun x => .move x.1 (.param x.2)
  bindings := .ofList carried

theorem openEdge_concat (carried : List (Var × Reg)) (v : Var) (r : Reg) :
    openEdge (carried ++ [(v, r)]) =
      { params := (openEdge carried).params ++ [v]
        body := (openEdge carried).body ++ [.move r (.param carried.length)]
        bindings := (openEdge carried).bindings.insert v r } := by
  have hbindings : Std.ExtTreeMap.ofList (carried ++ [(v, r)]) =
      (Std.ExtTreeMap.ofList carried).insert v r := by
    rw [Std.ExtTreeMap.ofList_eq_insertMany_empty, Std.ExtTreeMap.ofList_eq_insertMany_empty,
      Std.ExtTreeMap.insertMany_append, Std.ExtTreeMap.insertMany_list_singleton]
  simp [openEdge, hbindings, List.zipIdx_append]

theorem carry_pushBlock {carried : List (Var × Reg)} {v : Var} (hv : v ∉ carried.map Prod.fst)
    (r : Reg) (f : Routine) : carry f.blocks.size v r (f.pushBlock (openEdge carried)) =
      .ok () (f.pushBlock (openEdge (carried ++ [(v, r)]))) := by
  have hbinding : (openEdge carried).binding? v = none := by
    refine Std.ExtTreeMap.getElem?_ofList_of_contains_eq_false ?_
    rwa [← Bool.not_eq_true, List.contains_iff_mem]
  have hindex : (openEdge carried).params.idxOf? v = none := List.idxOf?_eq_none_iff.mpr hv
  have hread : (openEdge carried).read v = (.param carried.length,
      { openEdge carried with params := (openEdge carried).params ++ [v] }) := by
    have hlength : (openEdge carried).params.length = carried.length := List.length_map _
    simp only [Block.read, hbinding, hindex, hlength]
  rw [carry, bind_of_ok (read_pushBlock v), hread, bind_of_ok (writeReg_pushBlock rfl v r),
    add_pushBlock rfl, openEdge_concat]
  rfl

/-- The variables are distinct, so each of them is read as a new parameter. -/
theorem carryAll_pushBlock {carried more : List (Var × Reg)}
    (h : ((carried ++ more).map Prod.fst).Nodup) (f : Routine) :
    (more.forM fun x => carry f.blocks.size x.1 x.2) (f.pushBlock (openEdge carried)) =
      .ok () (f.pushBlock (openEdge (carried ++ more))) := by
  induction more generalizing carried with
  | nil => rw [List.append_nil]; rfl
  | cons x more ih =>
    rw [List.append_cons] at h ⊢
    have hx : x.1 ∉ carried.map Prod.fst := by
      rw [List.map_append, List.map_append, List.append_assoc, List.map_singleton] at h
      exact fun hmem => List.disjoint_of_nodup_append h hmem (by simp)
    show (carry f.blocks.size x.1 x.2 >>= fun _ => more.forM _) _ = _
    rw [bind_of_ok (carry_pushBlock hx x.2 f)]
    exact ih h

theorem edge_eq {vars : List Var} {shared : List Reg} (hv : vars.Nodup)
    (hlen : vars.length = shared.length) (target : BlockId) (f : Routine) :
    edge (vars.zip shared) target f =
      .ok f.blocks.size (f.pushBlock (edgeBlock vars shared target)) := by
  have hfst : (vars.zip shared).map Prod.fst = vars := List.map_fst_zip hlen.le
  have hsnd : (vars.zip shared).map Prod.snd = shared := List.map_snd_zip hlen.ge
  have hcreate : createBlock f = .ok f.blocks.size (f.pushBlock (openEdge [])) := rfl
  have hcarry := @carryAll_pushBlock [] (vars.zip shared) (by rwa [List.nil_append, hfst]) f
  rw [edge, bind_of_ok hcreate, bind_of_ok hcarry, jump, bind_of_ok (add_pushBlock rfl _)]
  simp only [List.nil_append, openEdge, hfst, hsnd]
  rfl

/-- A change of jumps is no call, but it may be refused. -/
def redirect (jumper old new : BlockId) : Build Unit := do
  match (← get).redirect jumper old new with
  | .ok f => set f
  | .error e => throw e

theorem result_redirect (jumper old new : BlockId) (f : Routine) :
    (redirect jumper old new).result f = (f.redirect jumper old new).map fun f => (f, ()) := by
  rw [redirect, result_bind_of_ok (get_eq f)]
  cases f.redirect jumper old new <;> rfl

/-- Splits an edge by a new block, which is noted. -/
def splitEdge (vars : List Var) (shared : List Reg) (target : BlockId) (edges : List BlockId)
    (jumper : BlockId) : Build (List BlockId) := do
  let b ← edge (vars.zip shared) target
  redirect jumper target b
  return edges ++ [b]

/-- Splits the edges into a join: a register for each variable, a block for each edge, and the
registers arrive in the join. -/
def splitJoin (g : FlowGraph) (n : Needs) (edges : List BlockId) (target : BlockId) :
    Build (List BlockId) := do
  if (g.preds target).length < 2 ∨ n.of target = [] then return edges
  let shared ← (n.of target).mapM createRegister
  let edges ← (g.preds target).foldlM (splitEdge (n.of target) shared target) edges
  modify (·.modifyBlock target (·.receiveAll ((n.of target).zip shared)))
  return edges

def splitJoins (g : FlowGraph) (n : Needs) : Build (List BlockId) :=
  g.order.foldlM (splitJoin g n) []

theorem result_splitEdge {vars : List Var} {shared : List Reg} (hv : vars.Nodup)
    (hlen : vars.length = shared.length) (target : BlockId) (edges : List BlockId)
    (jumper : BlockId) (f : Routine) : (splitEdge vars shared target edges jumper).result f =
      Routine.splitEdge vars shared target (f, edges) jumper := by
  rw [splitEdge, result_bind_of_ok (edge_eq hv hlen target f), result_bind, result_redirect,
    Routine.splitEdge]
  cases (f.pushBlock (edgeBlock vars shared target)).redirect jumper target f.blocks.size <;> rfl

theorem mapM_createRegister (vars : List Var) (f : Routine) :
    vars.mapM createRegister f = .ok (f.shareRegs vars).2 (f.shareRegs vars).1 := by
  induction vars generalizing f with
  | nil => rfl
  | cons v vars ih =>
    have hcreate : createRegister v f = .ok (f.regs.size : Reg) (f.pushReg { var := v }) := rfl
    have hregs : (f.shareRegs (v :: vars)).2 =
        (f.regs.size : Reg) :: ((f.pushReg { var := v }).shareRegs vars).2 := by
      simp only [Routine.shareRegs, Routine.pushReg, Array.size_push, List.length_cons,
        List.range_succ_eq_map, List.map_cons, List.map_map, Nat.add_zero]
      congr 1
      refine List.map_congr_left fun i _ => ?_
      rw [Function.comp_apply, Nat.succ_eq_one_add, ← Nat.add_assoc]
    rw [List.mapM_cons, bind_of_ok hcreate, bind_of_ok (ih (f.pushReg { var := v })), hregs]
    rfl

theorem result_splitJoin {g : FlowGraph} {n : Needs} (hn : ∀ b, (n.of b).Nodup)
    (edges : List BlockId) (target : BlockId) (f : Routine) :
    (splitJoin g n edges target).result f = Routine.splitJoin g n (f, edges) target := by
  simp only [splitJoin, Routine.splitJoin]
  by_cases hjoin : (g.preds target).length < 2 ∨ n.of target = []
  · rw [if_pos hjoin, if_pos hjoin]
    rfl
  · have hlen : (n.of target).length = (f.shareRegs (n.of target)).2.length := by
      simp [Routine.shareRegs]
    rw [if_neg hjoin, if_neg hjoin, result_bind_of_ok (mapM_createRegister (n.of target) f),
      result_bind, result_foldlM (result_splitEdge (hn target) hlen target)]
    cases (g.preds target).foldlM
      (Routine.splitEdge (n.of target) (f.shareRegs (n.of target)).2 target)
      ((f.shareRegs (n.of target)).1, edges) <;> rfl

/-- The needs of a routine list each variable once. -/
theorem result_splitJoins {f : Routine} {g : FlowGraph} {n : Needs} (h : f.needs g = .ok n) :
    (splitJoins g n).result f = f.splitJoins g n :=
  result_foldlM (result_splitJoin (Needs.nodup_of (Routine.nodup_sites h))) g.order [] f

/-! ## Arguments -/

/-- Binds a variable in the entry to a new register for its slot, or notes its name as missing. -/
def bindSlot (slots : List Slot) (missing : List String) (v : Var) : Build (List String) := do
  match slots.findIdx? (·.var = v) with
  | some slot =>
    let r ← createRegister v
    modify (·.assignSlot r slot)
    writeReg entry v r
    modify (·.modifyBlock entry (·.receive v r))
    return missing
  | none => return missing ++ [(← get).varName v]

/-- Binds what the open entry needs, and jumps on unless something is missing. -/
def bindArguments (n : Needs) (slots : List Slot) : Build (Option SignatureError) := do
  if ((← get).block entry).isComplete then throw (.entryBound (← get).name)
  let missing ← (n.of entry).foldlM (bindSlot slots) []
  if missing = [] then
    jump entry (← get).route
    return none
  return some { proc := (← get).name, missing }

section

variable {f : Routine} (h0 : entry < f.blocks.size) (hopen : (f.block entry).isComplete = false)

include h0 hopen

theorem result_bindSlot (slots : List Slot) (missing : List String) (v : Var) :
    (bindSlot slots missing v).result f = .ok (Routine.bindSlot slots (f, missing) v) := by
  simp only [bindSlot, Routine.bindSlot]
  cases slots.findIdx? (·.var = v) with
  | none => rfl
  | some slot =>
    have hcreate : createRegister v f = .ok (f.regs.size : Reg) (f.pushReg { var := v }) := rfl
    have hassign : (modify (·.assignSlot (f.regs.size : Reg) slot) : Build PUnit)
        (f.pushReg { var := v }) = .ok ⟨⟩ (f.pushReg { var := v, slot := some slot }) :=
      congrArg _ (Routine.assignSlot_pushReg f v slot)
    have hwrite : writeReg entry v f.regs.size (f.pushReg { var := v, slot := some slot }) = .ok ()
        ((f.pushReg { var := v, slot := some slot }).modifyBlock entry (·.bind v f.regs.size)) := by
      have hfind : (f.pushReg { var := v, slot := some slot }).find? (entry : Label) = some entry :=
        Routine.find?_natCast h0
      have hopen' : ((f.pushReg { var := v, slot := some slot }).block entry).isComplete = false :=
        hopen
      simp only [writeReg_eq, hfind, hopen', Bool.false_eq_true, if_false]
    dsimp only
    rw [result_bind_of_ok hcreate, result_bind_of_ok hassign, result_bind_of_ok hwrite]
    exact congrArg (fun f => Except.ok (f, missing)) (Routine.modifyBlock_modifyBlock _ entry _ _)

/-- The entry stays open. -/
theorem open_bindSlot (slots : List Slot) (missing : List String) (v : Var) :
    entry < (Routine.bindSlot slots (f, missing) v).1.blocks.size ∧
      ((Routine.bindSlot slots (f, missing) v).1.block entry).isComplete = false := by
  simp only [Routine.bindSlot]
  cases slots.findIdx? (·.var = v) with
  | none => exact ⟨h0, hopen⟩
  | some slot =>
    refine ⟨(Routine.size_modifyBlock ..).symm ▸ h0, ?_⟩
    dsimp only
    rw [Routine.block_modifyBlock_self (show entry < (f.pushReg _).blocks.size from h0)]
    exact (Block.isComplete_receiveAll [(v, _)] _).trans hopen

end

theorem result_bindSlots (slots : List Slot) (vs : List Var) (missing : List String) {f : Routine}
    (h0 : entry < f.blocks.size) (hopen : (f.block entry).isComplete = false) :
    (vs.foldlM (bindSlot slots) missing).result f =
      .ok (vs.foldl (Routine.bindSlot slots) (f, missing)) := by
  induction vs generalizing f missing with
  | nil => rfl
  | cons v vs ih =>
    obtain ⟨h0', hopen'⟩ := open_bindSlot h0 hopen slots missing v
    rw [List.foldlM_cons, result_bind, result_bindSlot h0 hopen, List.foldl_cons]
    exact ih _ h0' hopen'

theorem open_bindSlots (slots : List Slot) (vs : List Var) (missing : List String) {f : Routine}
    (h0 : entry < f.blocks.size) (hopen : (f.block entry).isComplete = false) :
    entry < (vs.foldl (Routine.bindSlot slots) (f, missing)).1.blocks.size ∧
      ((vs.foldl (Routine.bindSlot slots) (f, missing)).1.block entry).isComplete = false := by
  induction vs generalizing f missing with
  | nil => exact ⟨h0, hopen⟩
  | cons v vs ih =>
    obtain ⟨h0', hopen'⟩ := open_bindSlot h0 hopen slots missing v
    exact ih _ h0' hopen'

theorem result_bindArguments (n : Needs) (slots : List Slot) {f : Routine}
    (h0 : entry < f.blocks.size) : (bindArguments n slots).result f = f.bindArguments n slots := by
  rw [bindArguments, Routine.bindArguments, result_bind_of_ok (get_eq f)]
  cases hopen : (f.block entry).isComplete with
  | true => rfl
  | false =>
    obtain ⟨h0', hopen'⟩ := open_bindSlots slots (n.of entry) [] h0 hopen
    simp only [Bool.false_eq_true, if_false]
    rw [result_bind, result_bindSlots slots (n.of entry) [] h0 hopen]
    generalize (n.of entry).foldl (Routine.bindSlot slots) (f, []) = bound at h0' hopen'
    obtain ⟨f', missing⟩ := bound
    cases missing with
    | nil =>
      have hjump : jump entry f'.route f' =
          .ok () (f'.modifyBlock entry (·.add (.exit (.jump f'.route)))) := by
        have hfind : f'.find? (entry : Label) = some entry := Routine.find?_natCast h0'
        simp only [jump, add_eq, hfind, hopen', Bool.false_eq_true, if_false]
      show ((get >>= fun f => jump entry f.route >>= fun _ => pure none : Build _).result f') = _
      rw [result_bind_of_ok (get_eq f'), result_bind_of_ok hjump]
      rfl
    | cons name missing => rfl

end Build

end ProcCompiler
