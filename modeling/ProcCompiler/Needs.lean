import ProcCompiler.FlowGraph
/-!
# Needs

A block needs a variable if it waits for it, or if a block after it does and no block on the way
binds it. A site is a block together with a variable. The needs are found backwards from the
parameters of the reachable blocks, layer by layer, and are kept in the order in which they are
found. This is the needs calculator, section 4 of the specification, whose names are given in
parentheses.
-/
namespace ProcCompiler

structure Site where
  block : BlockId
  var : Var
deriving DecidableEq

namespace Site

/-- Sites are ordered by block, then by variable. -/
instance : Ord Site := ⟨compareLex (compareOn block) (compareOn var)⟩

instance : Std.TransOrd Site :=
  inferInstanceAs (Std.TransCmp (compareLex (compareOn block) (compareOn var)))

instance : Std.LawfulEqOrd Site where
  eq_of_compare {a b} h := by
    have h' : compareLex (compareOn block) (compareOn var) a b = .eq := h
    rw [compareLex_eq_eq] at h'
    obtain ⟨hb, hv⟩ := h'
    cases a
    cases b
    simp only [Site.mk.injEq]
    exact ⟨Std.LawfulEqOrd.eq_of_compare hb, Std.LawfulEqOrd.eq_of_compare hv⟩

end Site

/-- The sites at which a block needs a variable, in the order of their discovery (`BlockNeeds`). -/
structure Needs where
  sites : List Site
deriving DecidableEq

namespace Needs

/-- What a block needs (`Of`). -/
def of (n : Needs) (b : BlockId) : List Var := (n.sites.filter (·.block = b)).map Site.var

/-- Does a block need a variable (`Has`)? -/
def has (n : Needs) (b : BlockId) (v : Var) : Bool := n.sites.contains { block := b, var := v }

end Needs

namespace Routine

/-- The sites from which a need at a site is handed on: those of the predecessors that do not bind
the variable. -/
def needed (f : Routine) (g : FlowGraph) (s : Site) : List Site :=
  ((g.preds s.block).filter fun p => ((f.block p).binding? s.var).isNone).map fun p =>
    { s with block := p }

/-- The variables for which some reachable block waits. -/
def awaited (f : Routine) (g : FlowGraph) : List Var :=
  (g.order.flatMap fun b => (f.block b).params).eraseDups

/-- The sites of the parameters themselves. -/
def paramSites (f : Routine) (g : FlowGraph) : List Site :=
  g.order.flatMap fun b => (f.block b).params.map fun v => { block := b, var := v }

/-- The sites at which there could be a need. -/
def candidateSites (f : Routine) (g : FlowGraph) : List Site :=
  g.order.flatMap fun b => (f.awaited g).map fun v => { block := b, var := v }

/-- What every block needs (`CalcNeeds`). Variables are expected not to be negative. -/
def needs (f : Routine) (g : FlowGraph) : Except Violation Needs :=
  match (f.awaited g).find? (· < 0) with
  | some v => .error (.negativeVariable v)
  | none =>
    let seeds := draw (f.paramSites g) (.ofList (f.candidateSites g))
    .ok { sites := explore (f.needed g) seeds.1 seeds.2 }

end Routine

end ProcCompiler
