/-!
# Instructions

One shape of instruction serves the whole compiler. It is generic in what is written (`ω`), what is
read (`ρ`) and where a jump leads (`ℓ`): blocks under construction hold registers, operands and
block labels, finished code holds machine registers and offsets.

An instruction is an `Action`, after which control goes on to the next instruction, or an `Exit`,
which transfers control and so ends its block.
-/
namespace ProcCompiler

/-- A foreign function, by its place in the table of foreign functions. -/
abbrev FuncId := Int

/-- An instruction that goes on to the next one. A `call` hands one location to a foreign function;
`unknown` is an operation code without a meaning. -/
inductive Action (ω ρ : Type) where
  | move (out : ω) (arg : ρ)
  | call (fn : FuncId) (out : ω) (arg : ρ)
  | unknown (code : Int)
deriving DecidableEq

/-- An instruction that transfers control. -/
inductive Exit (ρ ℓ : Type) where
  | jump (target : ℓ)
  | branch (cond : ρ) (taken other : ℓ)
  | ret
deriving DecidableEq

inductive Instr (ω ρ ℓ : Type) where
  | action (a : Action ω ρ)
  | exit (e : Exit ρ ℓ)
deriving DecidableEq

variable {ω ω' ρ ρ' ℓ ℓ' : Type}

namespace Action

/-- The slot that the action writes. -/
def write? : Action ω ρ → Option ω
  | move out _ => some out
  | call _ out _ => some out
  | unknown _ => none

/-- The slot that the action reads. -/
def read? : Action ω ρ → Option ρ
  | move _ arg => some arg
  | call _ _ arg => some arg
  | unknown _ => none

def mapRead (f : ρ → ρ') : Action ω ρ → Action ω ρ'
  | move out arg => move out (f arg)
  | call fn out arg => call fn out (f arg)
  | unknown code => unknown code

def mapWrite (f : ω → ω') : Action ω ρ → Action ω' ρ
  | move out arg => move (f out) arg
  | call fn out arg => call fn (f out) arg
  | unknown code => unknown code

/-- The operation's name. -/
def opName : Action ω ρ → String
  | move _ _ => "move"
  | call _ _ _ => "call"
  | unknown code => "op(" ++ toString code ++ ")"

def text (out : ω → String) (arg : ρ → String) : Action ω ρ → String
  | move o a => "move\t" ++ out o ++ ", " ++ arg a
  | call fn o a => "call\tf" ++ toString fn ++ ", " ++ out o ++ ", " ++ arg a
  | unknown code => "op(" ++ toString code ++ ")"

end Action

namespace Exit

/-- The slot that the exit reads. -/
def read? : Exit ρ ℓ → Option ρ
  | branch cond _ _ => some cond
  | jump _ => none
  | ret => none

/-- Where the exit may lead: the taken target first, each target once. -/
def labels [DecidableEq ℓ] : Exit ρ ℓ → List ℓ
  | jump target => [target]
  | branch _ taken other => if taken = other then [taken] else [taken, other]
  | ret => []

def mapRead (f : ρ → ρ') : Exit ρ ℓ → Exit ρ' ℓ
  | jump target => jump target
  | branch cond taken other => branch (f cond) taken other
  | ret => ret

def mapLabel (f : ℓ → ℓ') : Exit ρ ℓ → Exit ρ ℓ'
  | jump target => jump (f target)
  | branch cond taken other => branch cond (f taken) (f other)
  | ret => ret

/-- Every jump to `old` leads to `new` instead. -/
def retarget [DecidableEq ℓ] (old new : ℓ) : Exit ρ ℓ → Exit ρ ℓ :=
  mapLabel fun l => if l = old then new else l

/-- The operation's name. -/
def opName : Exit ρ ℓ → String
  | jump _ => "jump"
  | branch _ _ _ => "branch"
  | ret => "return"

def text (arg : ρ → String) (label : ℓ → String) : Exit ρ ℓ → String
  | jump target => "jump\t" ++ label target
  | branch cond taken other => "branch\t" ++ arg cond ++ ", " ++ label taken ++ ", " ++ label other
  | ret => "return"

end Exit

namespace Instr

/-- The slot that the instruction writes. -/
def write? : Instr ω ρ ℓ → Option ω
  | action a => a.write?
  | exit _ => none

/-- The slot that the instruction reads. -/
def read? : Instr ω ρ ℓ → Option ρ
  | action a => a.read?
  | exit e => e.read?

/-- Where the instruction may jump. -/
def labels [DecidableEq ℓ] : Instr ω ρ ℓ → List ℓ
  | action _ => []
  | exit e => e.labels

def isExit : Instr ω ρ ℓ → Bool
  | action _ => false
  | exit _ => true

def mapWrite (f : ω → ω') : Instr ω ρ ℓ → Instr ω' ρ ℓ
  | action a => action (a.mapWrite f)
  | exit e => exit e

def mapRead (f : ρ → ρ') : Instr ω ρ ℓ → Instr ω ρ' ℓ
  | action a => action (a.mapRead f)
  | exit e => exit (e.mapRead f)

def mapLabel (f : ℓ → ℓ') : Instr ω ρ ℓ → Instr ω ρ ℓ'
  | action a => action a
  | exit e => exit (e.mapLabel f)

/-- A read of `old` becomes a read of `new`. -/
def replaceRead [DecidableEq ρ] (old new : ρ) : Instr ω ρ ℓ → Instr ω ρ ℓ :=
  mapRead fun a => if a = old then new else a

/-- Every jump to `old` leads to `new` instead. -/
def retarget [DecidableEq ℓ] (old new : ℓ) : Instr ω ρ ℓ → Instr ω ρ ℓ :=
  mapLabel fun l => if l = old then new else l

section Effects

variable {m : Type → Type} [Monad m]

/-- `mapWrite` for a function with an effect. -/
def mapWriteM (f : ω → m ω') : Instr ω ρ ℓ → m (Instr ω' ρ ℓ)
  | action (.move out arg) => do return action (.move (← f out) arg)
  | action (.call fn out arg) => do return action (.call fn (← f out) arg)
  | action (.unknown code) => return action (.unknown code)
  | exit e => return exit e

/-- `mapRead` for a function with an effect. -/
def mapReadM (f : ρ → m ρ') : Instr ω ρ ℓ → m (Instr ω ρ' ℓ)
  | action (.move out arg) => do return action (.move out (← f arg))
  | action (.call fn out arg) => do return action (.call fn out (← f arg))
  | action (.unknown code) => return action (.unknown code)
  | exit (.jump target) => return exit (.jump target)
  | exit (.branch cond taken other) => do return exit (.branch (← f cond) taken other)
  | exit .ret => return exit .ret

/-- `mapLabel` for a function with an effect. A branch maps its other target before the taken
one. -/
def mapLabelM (f : ℓ → m ℓ') : Instr ω ρ ℓ → m (Instr ω ρ ℓ')
  | action a => return action a
  | exit (.jump target) => do return exit (.jump (← f target))
  | exit (.branch cond taken other) => do
    let other' ← f other
    let taken' ← f taken
    return exit (.branch cond taken' other')
  | exit .ret => return exit .ret

end Effects

/-- The operation's name. -/
def opName : Instr ω ρ ℓ → String
  | action a => a.opName
  | exit e => e.opName

def text (out : ω → String) (arg : ρ → String) (label : ℓ → String) : Instr ω ρ ℓ → String
  | action a => a.text out arg
  | exit e => e.text arg label

end Instr

end ProcCompiler
