import ProcCompiler.Needs
/-!
# Delivery

Bindings are handed down the graph until every parameter is filled. A delivery offers the register
that a block binds a variable to, to each successor that needs the variable. The first offer is
accepted and handed on; a later one has to bring the same register. Deliveries of blocks that stand
first in the order go first, and of one block those of smaller variables. This is the downward
propagator, section 8 of the specification, whose names are given in parentheses.

* `deliver_measure`: an accepted offer is one site less to wait for, so delivery ends.
-/
namespace ProcCompiler

/-- The register `reg` of the variable of a site, ready to go to the successors of its block. The
rank is the block's place in the order. -/
structure Delivery where
  rank : Nat
  site : Site
  reg : Reg
deriving DecidableEq

/-- Does a delivery go before another (`deliveryLess`)? -/
def Delivery.before (d e : Delivery) : Bool :=
  d.rank < e.rank || (d.rank == e.rank && d.site.var < e.site.var)

/-- Puts a delivery into a queue, after those that go before it and its equals. -/
def enqueue (d : Delivery) : List Delivery → List Delivery
  | [] => [d]
  | e :: queue => if d.before e then d :: e :: queue else e :: enqueue d queue

theorem enqueue_length (d : Delivery) (queue : List Delivery) :
    (enqueue d queue).length = queue.length + 1 := by
  induction queue with
  | nil => rfl
  | cons e queue ih =>
    simp only [enqueue]
    split
    · rfl
    · simp [ih]

/-- The state of delivery: the routine, the deliveries to make, the sites that wait, and what
arrived. -/
structure Transit where
  routine : Routine
  queue : List Delivery
  waiting : Std.ExtTreeSet Site
  arrived : Std.ExtTreeMap Site Reg

namespace Transit

/-- The quantity that shrinks with every delivery. -/
def measure (t : Transit) : Nat := t.queue.length + t.waiting.size

/-- The delivery of what a block binds a variable to. -/
def delivery (g : FlowGraph) (b : BlockId) (v : Var) (r : Reg) : Delivery :=
  { rank := (g.index? b).getD 0, site := { block := b, var := v }, reg := r }

/-- Takes in a register at a site that waits for one. -/
def arrive (t : Transit) (s : Site) (r : Reg) : Transit :=
  { t with
    routine := t.routine.modifyBlock s.block (·.receive s.var r)
    waiting := t.waiting.erase s
    arrived := t.arrived.insert s r }

/-- The delivery of what the block of a site binds the variable to now. -/
def handOn (f : Routine) (g : FlowGraph) (s : Site) : Except Violation Delivery :=
  match (f.block s.block).binding? s.var with
  | some r => .ok (delivery g s.block s.var r)
  | none => .error (.noRegister f.name s.block (f.varName s.var))

/-- Puts what the block of a site binds the variable to into the queue (`push`). -/
def push (g : FlowGraph) (t : Transit) (s : Site) : Except Violation Transit := do
  return { t with queue := enqueue (← handOn t.routine g s) t.queue }

/-- Offers a delivery to a block (`deliver`). One that waits for it takes it in and hands on what it
then binds. -/
def deliver (g : FlowGraph) (d : Delivery) (t : Transit) (dest : BlockId) :
    Except Violation Transit :=
  let s : Site := { block := dest, var := d.site.var }
  if s ∈ t.waiting then (t.arrive s d.reg).push g s
  else
    match t.arrived[s]? with
    | none => .ok t
    | some r =>
      if r = d.reg then .ok t
      else .error (.twoSources t.routine.name dest (t.routine.varName s.var) r d.reg)

theorem arrive_measure {t : Transit} {s : Site} (hs : s ∈ t.waiting) (r : Reg) :
    (t.arrive s r).measure + 1 = t.measure := by
  have := size_erase_add_one hs
  simp only [measure, arrive]
  omega

theorem push_measure {g : FlowGraph} {t t' : Transit} {s : Site} (h : t.push g s = .ok t') :
    t'.measure = t.measure + 1 := by
  unfold push at h
  cases hd : handOn t.routine g s with
  | error e => rw [hd] at h; cases h
  | ok d =>
    rw [hd] at h
    cases h
    simp only [measure, enqueue_length]
    omega

theorem deliver_measure {g : FlowGraph} {d : Delivery} {t t' : Transit} {dest : BlockId}
    (h : t.deliver g d dest = .ok t') : t'.measure = t.measure := by
  simp only [deliver] at h
  split at h
  · rename_i hs
    rw [push_measure h, arrive_measure hs]
  · split at h
    · cases h; rfl
    · split at h
      · cases h; rfl
      · cases h

theorem foldlM_deliver_measure {g : FlowGraph} {d : Delivery} {dests : List BlockId}
    {t t' : Transit} (h : dests.foldlM (deliver g d) t = .ok t') : t'.measure = t.measure := by
  induction dests generalizing t with
  | nil => cases h; rfl
  | cons dest dests ih =>
    rw [List.foldlM_cons] at h
    cases hd : t.deliver g d dest with
    | error e => rw [hd] at h; cases h
    | ok t₁ => rw [hd] at h; rw [ih h, deliver_measure hd]

/-- Makes all deliveries. -/
def run (g : FlowGraph) (t : Transit) : Except Violation Transit :=
  match _hq : t.queue with
  | [] => .ok t
  | d :: queue =>
    match _h : (g.succs d.site.block).foldlM (deliver g d) { t with queue } with
    | .error e => .error e
    | .ok t' => run g t'
termination_by t.measure
decreasing_by
  rw [foldlM_deliver_measure ‹_›]
  simp [measure, ‹t.queue = _›]

/-- The deliveries of all that a block binds. -/
def bindingDeliveries (f : Routine) (g : FlowGraph) (b : BlockId) : List Delivery :=
  (f.block b).bindings.toList.map fun (v, r) => delivery g b v r

/-- The first state: every binding of a reachable block is to be delivered, every need waits. -/
def start (f : Routine) (g : FlowGraph) (n : Needs) : Transit :=
  { routine := f
    queue := (g.order.flatMap (bindingDeliveries f g)).foldr enqueue []
    waiting := .ofList n.sites
    arrived := ∅ }

end Transit

namespace Routine

/-- No reachable block waits any more. -/
def checkFilled (f : Routine) (g : FlowGraph) : Except Violation Unit :=
  g.order.forM fun b =>
    match (f.block b).params with
    | [] => .ok ()
    | v :: _ => .error (.stillWaits f.name b (f.varName v))

/-- The routine with every parameter of a reachable block replaced by the register that reaches it
(`Propagate`). -/
def deliverAll (f : Routine) (g : FlowGraph) : Except Violation Routine := do
  let t ← (Transit.start f g (← f.needs g)).run g
  t.routine.checkFilled g
  return t.routine

end Routine

end ProcCompiler
