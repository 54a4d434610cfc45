import Scriptlet.Eval.Node
import Scriptlet.Proofs.Eval.Heap

/-!
# Scopes that bind no fault

A fault is never bound to a name, nor is a value that is returning one. Here is what that means
and what keeps it so, one operation of the machine after another.

* `Value.faultless`, `Heap.Faultless`: no fault in a value, none in any scope.
* `Value.isResult`: what operators and builtin functions give, which is a fault or faultless.
-/

namespace Scriptlet

open Syntax (Node)

namespace Value

variable {v : Value}

/-- Whether no fault is in a value, also none that it is returning. -/
def faultless : Value → Bool
  | fault _ => false
  | returning v => v.faultless
  | _ => true

theorem isFault_of_faultless (hv : v.faultless) : v.isFault = false := by
  cases v with
  | fault f => simp [faultless] at hv
  | _ => rfl

theorem faultless_arrived (hv : v.faultless) : v.arrived.faultless := by
  cases v with
  | returning v => exact hv
  | fault f => simp [faultless] at hv
  | _ => rfl

/-! ## What operators give -/

/-- Whether a value is of a sort that operators and builtin functions give: it is no function, and
returns no other value. -/
def isResult : Value → Bool
  | returning _ | function .. => false
  | _ => true

/-- A result that is not a fault has none in it. -/
theorem faultless_of_isResult (hresult : v.isResult) (hfault : v.isFault = false) :
    v.faultless := by
  cases v with
  | returning v => simp [isResult] at hresult
  | fault f => simp [isFault] at hfault
  | _ => rfl

theorem isResult_onIntegers (l r : Int) (op : BinaryOp) : (op.onIntegers l r).isResult := by
  -- a quotient or a power may fail; all other results are integers or booleans outright
  cases op with
  | div => unfold BinaryOp.onIntegers; dsimp only; split <;> rfl
  | pow => unfold BinaryOp.onIntegers; dsimp only; split <;> rfl
  | _ => rfl

theorem isResult_onBooleans? {l r : Bool} {op : BinaryOp} (h : op.onBooleans? l r = some v) :
    v.isResult := by
  cases op <;> simp [BinaryOp.onBooleans?] at h <;> subst h <;> rfl

theorem isResult_onStrings? {l r : String} {op : BinaryOp} (h : op.onStrings? l r = some v) :
    v.isResult := by
  cases op <;> simp [BinaryOp.onStrings?] at h <;> subst h <;> rfl

theorem isResult_binary? {op : String} {l r : Value} (h : binary? op l r = some v) :
    v.isResult := by
  unfold binary? at h
  split at h
  · obtain ⟨o, -, rfl⟩ := Option.map_eq_some_iff.1 h
    exact isResult_onIntegers _ _ o
  · obtain ⟨o, -, ho⟩ := Option.bind_eq_some_iff.1 h
    exact isResult_onBooleans? ho
  · obtain ⟨o, -, ho⟩ := Option.bind_eq_some_iff.1 h
    exact isResult_onStrings? ho
  · cases h

theorem isResult_binary (op : String) (l r : Value) : (binary op l r).isResult := by
  unfold binary
  split
  · rename_i v hv
    exact isResult_binary? hv
  · split <;> rfl

theorem isResult_unary (op : String) (v : Value) : (v.unary op).isResult := by
  unfold unary
  split
  · rfl
  · cases v <;> rfl
  · rfl

end Value

theorem Builtin.isResult_apply (b : Builtin) (args : List Value) :
    (b.apply args).1.isResult := by
  unfold Builtin.apply
  split <;> rfl

/-! ## Scopes -/

/-- No scope binds a fault. -/
def Heap.Faultless (h : Heap) : Prop := ∀ i, ∀ b ∈ (h.scope i).bindings, b.2.faultless

namespace Heap.Faultless

variable {h : Heap}

theorem empty : Heap.empty.Faultless := Binds.empty _

theorem addOutermost (hh : h.Faultless) : h.addOutermost.Faultless := Binds.addOutermost hh

theorem addInside (hh : h.Faultless) (i : ScopeId) : (h.addInside i).Faultless :=
  Binds.addInside hh i

theorem bind (hh : h.Faultless) (i : ScopeId) (name : String) {v : Value} (hv : v.faultless) :
    (h.bind i name v).Faultless := Binds.bind hh i name hv

theorem bindAll (hh : h.Faultless) (i : ScopeId) {bs : List (String × Value)}
    (hbs : ∀ b ∈ bs, b.2.faultless) : (h.bindAll i bs).Faultless := Binds.bindAll hh i hbs

/-- What a name is bound to has no fault in it. -/
theorem find? (hh : h.Faultless) {i : ScopeId} {name : String} {v : Value}
    (hv : h.find? i name = some v) : v.faultless := Binds.find? hh hv

end Heap.Faultless

/-- What holds of all arguments holds of what the parameters are bound to. -/
theorem Eval.forall_mem_bindings {p : Value → Prop} {params : List Node} {args : List Value}
    (hargs : ∀ v ∈ args, p v) : ∀ b ∈ bindings params args, p b.2 := by
  intro b hb
  obtain ⟨⟨param, arg⟩, hzip, hb'⟩ := List.mem_filterMap.1 hb
  obtain ⟨text, -, rfl⟩ := Option.map_eq_some_iff.1 hb'
  exact hargs arg (List.of_mem_zip hzip).2

end Scriptlet
