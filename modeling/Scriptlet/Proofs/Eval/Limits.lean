import Scriptlet.Proofs.Eval.Abort

/-!
# Higher limits change nothing but what hit a limit

A limit on active calls or nodes is felt only where a run comes up against it, and then the run is
cut off with a fault that says so. So a run that ends in any other way ends the same under every
higher limit.

* `Fault.exceedsLimit`: the faults that say a limit was hit.
* `Extends`: what hits no limit stays as it is.
* `extends_node`: higher limits extend every walk.
* `evaluate_of_le`: the same for whole runs of the evaluator.
-/

namespace Scriptlet

/-- Whether the fault says that a limit was hit. -/
def Fault.exceedsLimit (f : Fault) : Bool := f.kind == "stack-depth-exceeded"

namespace Walk

open Syntax (Node)

/-! ## Walks with more room -/

/-- `q` does what `p` does, except where `p` is cut off because it hit a limit. -/
def Extends {α : Type} (p q : Walk α) : Prop :=
  ∀ w, (∃ f : Fault, (p w).1 = .error (.fault f) ∧ f.exceedsLimit) ∨ q w = p w

section

variable {α β : Type} {p q : Walk α} {f g : α → Walk β}

theorem Extends.refl (p : Walk α) : Extends p p := fun _ => .inr rfl

/-- What is cut off at a limit is cut off for good. -/
theorem Extends.bind (hp : Extends p q) (hf : ∀ a, Extends (f a) (g a)) :
    Extends (p >>= f) (q >>= g) := by
  intro w
  rw [bind_run, bind_run]
  rcases hp w with ⟨fault, hcut, hlimit⟩ | heq
  · left
    refine ⟨fault, ?_, hlimit⟩
    generalize p w = r at hcut
    obtain ⟨_, w'⟩ := r
    cases hcut
    rfl
  · rw [heq]
    obtain ⟨stop | a, w'⟩ := p w
    · exact .inr rfl
    · exact hf a w'

end

/-! ## The parts of a walk -/

theorem extends_statements {walk walk' : Node → Walk Value}
    (h : ∀ e, Extends (walk e) (walk' e)) (ss : List Node) (last : Value) :
    Extends (statements walk last ss) (statements walk' last ss) := by
  induction ss generalizing last with
  | nil => exact .refl _
  | cons s ss ih =>
    refine (h s).bind fun v => ?_
    cases v with
    | returning v => exact .refl _
    | _ => exact ih _

theorem extends_mapM {walk walk' : Node → Walk Value}
    (h : ∀ e, Extends (walk e) (walk' e)) (es : List Node) :
    Extends (es.mapM walk) (es.mapM walk') := by
  induction es with
  | nil => exact .refl _
  | cons e es ih =>
    rw [List.mapM_cons, List.mapM_cons]
    exact (h e).bind fun v => ih.bind fun vs => .refl _

section

variable {maxDepth maxDepth' : Nat} (hle : maxDepth ≤ maxDepth')
  {walk walk' : Nat → Node → ScopeId → Walk Value}
  (h : ∀ depth e scope, Extends (walk depth e scope) (walk' depth e scope))

include hle h

/-- A call is refused for want of room under the lower limit first. -/
theorem extends_apply (depth : Nat) (f : Value) (args : List Value) :
    Extends (apply maxDepth depth walk f args) (apply maxDepth' depth walk' f args) := by
  cases f with
  | function params body scope =>
    unfold apply
    by_cases harity : args.length ≠ params.length
    · simp only [if_pos harity]
      exact .refl _
    · simp only [if_neg harity]
      by_cases hdepth : maxDepth ≤ depth
      · simp only [if_pos hdepth]
        exact fun w => .inl ⟨.tooManyCalls maxDepth, rfl, rfl⟩
      · have hdepth' : ¬ maxDepth' ≤ depth := by omega
        simp only [if_neg hdepth, if_neg hdepth']
        refine (Extends.refl _).bind fun inner => ?_
        exact (h (depth + 1) body inner).bind fun v => .refl _
  | _ => exact .refl _

theorem extends_tree (depth : Nat) (node : Node) (scope : ScopeId) :
    Extends (tree maxDepth depth walk node scope) (tree maxDepth' depth walk' node scope) := by
  have hhere : ∀ e, Extends (walk depth e scope) (walk' depth e scope) := fun e => h depth e scope
  cases node with
  | program _ ss => exact (extends_statements hhere ss _).bind fun v => .refl _
  | block _ ss => exact extends_statements hhere ss _
  | statement _ e => exact hhere e
  | binding _ name e => exact (hhere e).bind fun v => .refl _
  | returning _ e => exact (hhere e).bind fun v => .refl _
  | integer | boolean | string | function | identifier | bare => exact .refl _
  | unary _ op e => exact (hhere e).bind fun v => .refl _
  | binary _ l op r => exact (hhere l).bind fun lv => (hhere r).bind fun rv => .refl _
  | conditional _ c t e =>
    refine (hhere c).bind fun v => ?_
    split
    · exact hhere t
    · cases e with
      | some e => exact hhere e
      | none => exact .refl _
  | call _ f args =>
    refine (hhere f).bind fun fv => ?_
    refine (extends_mapM hhere args).bind fun vs => ?_
    exact extends_apply hle h depth fv vs

end

/-- **Higher limits extend every walk**, by induction on the room under the lower one. -/
theorem extends_node {maxDepth maxDepth' : Nat} (hle : maxDepth ≤ maxDepth') :
    ∀ {budget budget' : Nat}, budget ≤ budget' → ∀ depth e scope,
      Extends (node maxDepth budget depth e scope) (node maxDepth' budget' depth e scope) := by
  intro budget
  induction budget with
  | zero => exact fun _ _ _ _ w => .inl ⟨.tooManyNodes (Eval.nestingLimit maxDepth), rfl, rfl⟩
  | succ budget ih =>
    intro budget' hbudget depth e scope
    obtain ⟨room, rfl⟩ : ∃ room, budget' = room + 1 := ⟨budget' - 1, by omega⟩
    exact extends_tree hle (fun depth e scope => ih (by omega) depth e scope) depth e scope

theorem extends_run {maxDepth maxDepth' : Nat} (hle : maxDepth ≤ maxDepth') (e : Node)
    (scope : ScopeId) : Extends (run maxDepth e scope) (run maxDepth' e scope) := by
  refine extends_node hle ?_ 0 e scope
  unfold Eval.nestingLimit
  omega

end Walk

namespace Eval

open Syntax (Node)

/-! ## Whole runs -/

/-- **Raising the limit changes no result that did not hit one.** From every machine that runs can
come to, a run that does not end in a fault about a limit gives the same result, prints the same
and leaves the same scopes with more calls allowed. -/
theorem evaluate_of_le {m : Machine} (hm : Reached m) {maxDepth maxDepth' : Nat}
    (hle : maxDepth ≤ maxDepth') (node : Node) (scope : ScopeId)
    (hfree : ∀ f, (evaluate maxDepth node scope m).1 = .ok (.fault f) → ¬ f.exceedsLimit) :
    evaluate maxDepth' node scope m = evaluate maxDepth node scope m := by
  have hrun := (hm.resting.evaluate maxDepth node scope).1
  have hrun' := (hm.resting.evaluate maxDepth' node scope).1
  rcases Walk.extends_run hle node scope m.world with ⟨f, hcut, hlimit⟩ | heq
  · refine absurd hlimit (hfree f ?_)
    rw [hrun, hcut]
    rfl
  · rw [hrun, hrun', heq]

section

open Syntax.Node

/-- Counts down from two by calls, each inside the one before. -/
def countsDown : Node :=
  let n := identifier .start "n"
  let again := call .start (identifier .start "f") [binary .start n "-" (integer .start 1)]
  program .start [
    binding .start (identifier .start "f") (function .start [n] (block .start [
      statement .start (conditional .start (binary .start n "<" (integer .start 1))
        (block .start [statement .start n]) (some (block .start [statement .start again])))])),
    statement .start (call .start (identifier .start "f") [integer .start 2])]

theorem evaluate_countsDown :
    Reached .initial ∧ evaluate 500 countsDown 0 .initial = evaluate 3 countsDown 0 .initial := by
  have hinitial : Reached .initial := Reached.start.addOutermost
  have hresult : (evaluate 3 countsDown 0 .initial).1.toOption.map Value.type = some .integer := by
    decide +kernel
  refine ⟨hinitial, evaluate_of_le hinitial (by decide) countsDown 0 ?_⟩
  intro f hf
  rw [hf] at hresult
  cases hresult

end

end Eval

end Scriptlet
