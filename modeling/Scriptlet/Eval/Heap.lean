import Scriptlet.Value.Basic

/-!
# Scopes

A scope binds names to values and stands inside other scopes. The heap holds all scopes of a run,
by number; a scope stays as long as the heap does, so that functions can refer to it.

* `Heap.find?` looks a name up in a scope and then in those around it, the nearest first.
* `Heap.bind` binds a name in one scope and touches no other.
-/

namespace Scriptlet

/-- A scope: its bindings, with distinct names, and the scopes around it, the nearest first. -/
structure Scope where
  bindings : List (String × Value)
  around : List ScopeId
deriving Repr, Inhabited

namespace Scope

/-- The value of a name in this scope alone. -/
def find? (s : Scope) (name : String) : Option Value := s.bindings.lookup name

/-- Binds a name, in place of what it was bound to. -/
def bind (s : Scope) (name : String) (v : Value) : Scope :=
  { s with bindings := (name, v) :: s.bindings.filter (·.1 != name) }

/-- The bindings in the order of their names. -/
def sorted (s : Scope) : List (String × Value) :=
  s.bindings.mergeSort fun a b => a.1 ≤ b.1

/-- How a scope is shown: its names, and whether there is a scope around it. -/
def display (s : Scope) : String :=
  "Environment([" ++ ", ".intercalate (s.sorted.map (·.1)) ++ "], outer=" ++
    (if s.around.isEmpty then "no" else "yes") ++ ")"

end Scope

/-- All scopes of a run, by number. -/
structure Heap where
  scopes : Array Scope
deriving Repr, Inhabited

namespace Heap

/-- No scopes. -/
def empty : Heap := ⟨#[]⟩

/-- The scope of a given number. -/
def scope (h : Heap) (i : ScopeId) : Scope := h.scopes.getD i ⟨[], []⟩

/-- The scope of a given number, then those around it, the nearest first. -/
def chain (h : Heap) (i : ScopeId) : List ScopeId := i :: (h.scope i).around

/-- The value of a name, in the nearest scope on the chain that binds it. -/
def find? (h : Heap) (i : ScopeId) (name : String) : Option Value :=
  (h.chain i).findSome? fun j => (h.scope j).find? name

/-- Binds a name in the scope `i`. -/
def bind (h : Heap) (i : ScopeId) (name : String) (v : Value) : Heap :=
  ⟨h.scopes.modify i (·.bind name v)⟩

/-- Binds names in the scope `i`, from left to right. -/
def bindAll (h : Heap) (i : ScopeId) (bindings : List (String × Value)) : Heap :=
  bindings.foldl (fun h b => h.bind i b.1 b.2) h

/-- The number of the next new scope. -/
def nextId (h : Heap) : ScopeId := h.scopes.size

/-- Adds a scope with no scope around it. -/
def addOutermost (h : Heap) : Heap := ⟨h.scopes.push ⟨[], []⟩⟩

/-- Adds a scope inside the scope `i`. -/
def addInside (h : Heap) (i : ScopeId) : Heap := ⟨h.scopes.push ⟨[], h.chain i⟩⟩

end Heap

end Scriptlet
