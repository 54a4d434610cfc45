import Scriptlet.Eval.Heap
import Scriptlet.Value.Operator

/-!
# The machine

The state of a run: the scopes, what was printed, and two counters. `depth` is the number of
function calls that are active and `nesting` that of the nodes. Both have a limit, which follows
from the number of calls that may be active at once.
-/

namespace Scriptlet.Eval

/-- The number of active calls that is allowed unless another is asked for. -/
def defaultDepth : Nat := 200

/-- The largest number of active calls that may be allowed. -/
def depthLimit : Nat := 500

/-- The number of active nodes that is allowed with `maxDepth` active calls: ten for each of
them, and some more for the statements around them. -/
def nestingLimit (maxDepth : Nat) : Nat := maxDepth * 10 + 500

/-- Why a number of active calls cannot be allowed. -/
inductive DepthError
  | notPositive (asked : Int)
  | tooLarge (asked : Int)
deriving DecidableEq, Repr

/-- The wording of a depth error. -/
def DepthError.message : DepthError → String
  | notPositive n => "max_depth must be positive, got " ++ toString n
  | tooLarge n =>
    "max_depth must be at most " ++ toString depthLimit ++ ", got " ++ toString n

/-- The number of active calls to allow, if it can be allowed. -/
def checkDepth (asked : Int) : Except DepthError Nat :=
  if asked < 1 then .error (.notPositive asked)
  else if (depthLimit : Int) < asked then .error (.tooLarge asked)
  else .ok asked.toNat

/-- The state of a run. Printed lines are kept newest first. -/
structure Machine where
  heap : Heap
  printed : List Line
  depth : Nat
  nesting : Nat
deriving Inhabited

namespace Machine

/-- A machine with one scope, the global one. -/
def initial : Machine := ⟨Heap.empty.addOutermost, [], 0, 0⟩

/-- The number of the global scope. -/
def globalScope : ScopeId := 0

/-- What was printed, as one text. -/
def output (m : Machine) : String :=
  m.printed.foldr (fun line text => text ++ line.text ++ "\n") ""

end Machine

/-- Why a run cannot go on at all: a node that has no meaning. -/
structure Meaningless where
  kind : String
  pos : Pos
deriving DecidableEq, Repr

/-- The wording of the failure at a meaningless node. -/
def Meaningless.message (e : Meaningless) : String :=
  "Evaluator: no evaluator for " ++ e.kind ++ " (line " ++ toString e.pos.line ++ ", col " ++
    toString e.pos.column ++ ")"

end Eval

/-- A computation of the machine: it changes the state, and gives a result or cannot go on. -/
abbrev Eval (α : Type) := ExceptT Eval.Meaningless (StateM Eval.Machine) α

namespace Eval

/-- Runs `act` with one more active node. -/
def nested {α : Type} (act : Eval α) : Eval α := ExceptT.mk fun m =>
  let (result, m) := act { m with nesting := m.nesting + 1 }
  (result, { m with nesting := m.nesting - 1 })

/-- Runs `act` with one more active call. -/
def called {α : Type} (act : Eval α) : Eval α := ExceptT.mk fun m =>
  let (result, m) := act { m with depth := m.depth + 1 }
  (result, { m with depth := m.depth - 1 })

/-- Prints lines. -/
def print (lines : List Line) : Eval Unit :=
  modify fun m => { m with printed := lines.reverse ++ m.printed }

/-- Binds a name in a scope. -/
def bind (scope : ScopeId) (name : String) (v : Value) : Eval Unit :=
  modify fun m => { m with heap := m.heap.bind scope name v }

/-- Makes a new scope inside another, with bindings. -/
def enclose (scope : ScopeId) (bindings : List (String × Value)) : Eval ScopeId :=
  modifyGet fun m =>
    let i := m.heap.nextId
    (i, { m with heap := (m.heap.addInside scope).bindAll i bindings })

end Scriptlet.Eval
