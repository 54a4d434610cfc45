import Scriptlet.Proofs.Eval.Faultless
import Scriptlet.Proofs.Eval.Walk
import Scriptlet.Proofs.Run

/-!
# A fault ends the run

The evaluator passes a fault on from node to node as a value. That is the same as to cut the run
off where the fault arises: from every machine that runs can come to, `evaluate` gives the result,
the printed lines and the scopes of `Walk.run`.

* `Agrees`: one computation of the evaluator does what one of the walk does.
* `Agrees.bind`: what passes faults on agrees with what never sees them.
* `agrees_evalNode`: the two evaluators agree on every tree.
* `evaluate_eq_run`: the main statement, over all machines that are `Reached`.
-/

namespace Scriptlet.Eval

open Syntax (Node)
open Walk (Stop World)

/-! ## Two computations that agree -/

/-- What a walk sees of a machine. -/
def Machine.world (m : Machine) : World := ⟨m.heap, m.printed⟩

/-- The machine with what a walk left. -/
def Machine.withWorld (m : Machine) (w : World) : Machine :=
  { m with heap := w.heap, printed := w.printed }

/-- The result of the evaluator where a walk has the given one: the evaluator goes on after a
fault, with what `shown` makes of it. -/
def reported {α β : Type} (shown : Except Fault β → α) : Except Stop β → Except Meaningless α
  | .ok b => .ok (shown (.ok b))
  | .error (.fault f) => .ok (shown (.error f))
  | .error (.meaningless e) => .error e

/-- The value that shows a value or a fault. -/
def valueOf : Except Fault Value → Value
  | .ok v => v
  | .error f => .fault f

/-- Under `depth` calls and while no scope binds a fault, `act` does what `walk` does, and the
walk keeps it so and gives a `sound` result. -/
def Agrees {α β : Type} (shown : Except Fault β → α) (sound : β → Prop) (depth : Nat)
    (act : Eval α) (walk : Walk β) : Prop :=
  ∀ m : Machine, m.depth = depth → m.heap.Faultless →
    act m = (reported shown (walk m.world).1, m.withWorld (walk m.world).2) ∧
      (walk m.world).2.heap.Faultless ∧ ∀ b, (walk m.world).1 = .ok b → sound b

/-- Two computations of values agree. -/
abbrev AgreesOnValue : Nat → Eval Value → Walk Value → Prop :=
  Agrees valueOf fun v => v.faultless

section

variable {α β γ δ : Type} {shown : Except Fault β → α} {sound : β → Prop}
  {shown' : Except Fault δ → γ} {sound' : δ → Prop} {d : Nat}

theorem agrees_pure {b : β} (hb : sound b) :
    Agrees shown sound d (pure (shown (.ok b))) (pure b) := by
  intro m _ hm
  refine ⟨rfl, hm, ?_⟩
  intro b' hb'
  cases hb'
  exact hb

theorem agrees_abort (f : Fault) :
    Agrees shown sound d (pure (shown (.error f))) (Walk.abort f) := by
  intro m _ hm
  refine ⟨rfl, hm, ?_⟩
  intro b hb
  cases hb

theorem agrees_throw (e : Meaningless) :
    Agrees shown sound d (throw e) (throw (Stop.meaningless e)) := by
  intro m _ hm
  refine ⟨rfl, hm, ?_⟩
  intro b hb
  cases hb

/-- Two computations that go on by what they read of the same machine. -/
theorem agrees_get {k : Machine → Eval α} {l : World → Walk β}
    (h : ∀ m : Machine, m.depth = d → m.heap.Faultless → Agrees shown sound d (k m) (l m.world)) :
    Agrees shown sound d (get >>= k) (get >>= l) :=
  fun m hd hm => h m hd hm m hd hm

/-- The evaluator reads the depth that the walk was passed. -/
theorem agrees_depth {k : Machine → Eval α} {walk : Walk β}
    (h : ∀ m : Machine, m.depth = d → Agrees shown sound d (k m) walk) :
    Agrees shown sound d (get >>= k) walk :=
  fun m hd hm => h m hd m hd hm

/-- **What passes faults on agrees with what never sees them.** -/
theorem Agrees.bind {act : Eval α} {walk : Walk β} {k : α → Eval γ} {l : β → Walk δ}
    (h : Agrees shown sound d act walk)
    (hfault : ∀ f, k (shown (.error f)) = pure (shown' (.error f)))
    (hnext : ∀ b, sound b → Agrees shown' sound' d (k (shown (.ok b))) (l b)) :
    Agrees shown' sound' d (act >>= k) (walk >>= l) := by
  intro m hd hm
  obtain ⟨hact, hheap, hsound⟩ := h m hd hm
  rw [bind_run, bind_run, hact]
  generalize hr : walk m.world = r at hheap hsound
  obtain ⟨b | b, w⟩ := r
  · -- the walk was cut off: with a fault the evaluator still runs `k`, which only hands it on
    refine ⟨?_, hheap, fun b' hb' => by cases hb'⟩
    cases b with
    | fault f =>
      show k (shown (.error f)) (m.withWorld w) = _
      rw [hfault]
      rfl
    | meaningless e => rfl
  · exact hnext b (hsound b rfl) (m.withWorld w) hd hheap

/-- The check for a fault that stands after a subtree in the evaluator. -/
theorem Agrees.checked {act : Eval Value} {walk : Walk Value} {k : Value → Eval Value}
    {l : Value → Walk Value} (h : AgreesOnValue d act walk)
    (hnext : ∀ v, v.faultless → AgreesOnValue d (k v) (l v)) :
    AgreesOnValue d (act >>= fun v => if v.isFault then pure v else k v) (walk >>= l) := by
  refine h.bind (fun f => rfl) ?_
  intro v hv
  have hnot : (valueOf (.ok v)).isFault = false := Value.isFault_of_faultless hv
  simp only [hnot, Bool.false_eq_true, if_false]
  exact hnext v hv

/-- A step that gives the same on both sides and leaves the same world goes before two
computations that agree. -/
theorem Agrees.after {ε : Type} {act : Eval ε} {walk : Walk ε} {k : ε → Eval γ} {l : ε → Walk δ}
    (hstep : ∀ m : Machine, m.heap.Faultless → ∃ c w,
      act m = (.ok c, m.withWorld w) ∧ walk m.world = (.ok c, w) ∧ w.heap.Faultless)
    (hnext : ∀ c, Agrees shown' sound' d (k c) (l c)) :
    Agrees shown' sound' d (act >>= k) (walk >>= l) := by
  intro m hd hm
  obtain ⟨c, w, hact, hwalk, hw⟩ := hstep m hm
  rw [bind_run, bind_run, hact, hwalk]
  exact hnext c (m.withWorld w) hd hw

/-- The count of nodes is no part of the world, and is what it was afterwards. -/
theorem Agrees.nested {act : Eval α} {walk : Walk β} (h : Agrees shown sound d act walk) :
    Agrees shown sound d (nested act) walk := by
  intro m hd hm
  obtain ⟨hact, hrest⟩ := h { m with nesting := m.nesting + 1 } hd hm
  refine ⟨?_, hrest⟩
  simp only [Eval.nested, ExceptT.mk, hact]
  rfl

theorem Agrees.called {act : Eval α} {walk : Walk β} (h : Agrees shown sound (d + 1) act walk) :
    Agrees shown sound d (called act) walk := by
  intro m hd hm
  obtain ⟨hact, hrest⟩ := h { m with depth := m.depth + 1 } (congrArg (· + 1) hd) hm
  refine ⟨?_, hrest⟩
  simp only [Eval.called, ExceptT.mk, hact]
  rfl

end

/-! ## The parts of the evaluator -/

variable {d maxDepth : Nat}

/-- A value that an operator gives is a fault, which cuts the walk off, or has none in it. -/
theorem agrees_produce {v : Value} (hv : v.isResult) :
    AgreesOnValue d (pure v) (Walk.produce v) := by
  by_cases hfault : v.isFault = true
  · cases v with
    | fault f => exact agrees_abort f
    | _ => simp [Value.isFault] at hfault
  · have hclean : v.faultless := Value.faultless_of_isResult hv (by simpa using hfault)
    cases v with
    | fault f => simp [Value.faultless] at hclean
    | _ => exact agrees_pure hclean

theorem agrees_runStatements {eval : Node → Eval Value} {walk : Node → Walk Value}
    (h : ∀ e, AgreesOnValue d (eval e) (walk e)) (ss : List Node) {last : Value}
    (hlast : last.faultless) :
    AgreesOnValue d (runStatements eval last ss) (Walk.statements walk last ss) := by
  induction ss generalizing last with
  | nil => exact agrees_pure hlast
  | cons s ss ih =>
    refine (h s).bind (fun f => rfl) ?_
    intro v hv
    cases v with
    | returning v => exact agrees_pure hv
    | fault f => simp [Value.faultless] at hv
    | _ => exact ih hv

theorem agrees_evalArguments {eval : Node → Eval Value} {walk : Node → Walk Value}
    (h : ∀ e, AgreesOnValue d (eval e) (walk e)) (es : List Node) :
    Agrees id (fun vs => ∀ v ∈ vs, v.faultless) d (evalArguments eval es) (es.mapM walk) := by
  induction es with
  | nil => exact agrees_pure (by simp)
  | cons e es ih =>
    rw [List.mapM_cons]
    refine (h e).bind (fun f => rfl) ?_
    intro v hv
    cases v with
    | fault f => simp [Value.faultless] at hv
    | _ =>
      refine ih.bind (fun f => rfl) ?_
      intro vs hvs
      refine agrees_pure ?_
      exact List.forall_mem_cons.2 ⟨hv, hvs⟩

theorem agrees_evalName (scope : ScopeId) (text : String) :
    AgreesOnValue d (evalName scope text) (Walk.name scope text) := by
  refine agrees_get ?_
  -- both read the same scopes; what they find there has no fault in it
  intro m _ hm
  dsimp only [Machine.world]
  cases hfind : m.heap.find? scope text with
  | some v => exact agrees_pure (hm.find? hfind)
  | none =>
    cases Builtin.ofName? text with
    | some b => exact agrees_pure rfl
    | none => exact agrees_abort _

/-- Binding a name leaves the same scopes on both sides, with no fault in them. -/
theorem agrees_bindName (scope : ScopeId) (name : Node) {v : Value} (hv : v.faultless)
    (m : Machine) (hm : m.heap.Faultless) :
    ∃ c w, bindName scope name v m = (.ok c, m.withWorld w) ∧
      Walk.bindName scope name v m.world = (.ok c, w) ∧ w.heap.Faultless := by
  unfold bindName Walk.bindName
  cases name.boundName? with
  | some text => exact ⟨(), _, rfl, rfl, hm.bind scope text hv⟩
  | none => exact ⟨(), m.world, rfl, rfl, hm⟩

theorem agrees_applyWith {eval : Node → ScopeId → Eval Value}
    {walk : Nat → Node → ScopeId → Walk Value}
    (h : ∀ d e scope, AgreesOnValue d (eval e scope) (walk d e scope)) (f : Value)
    {args : List Value} (hargs : ∀ v ∈ args, v.faultless) :
    AgreesOnValue d (applyWith maxDepth eval f args) (Walk.apply maxDepth d walk f args) := by
  cases f with
  | builtin b =>
    refine Agrees.after (fun m hm => ⟨(), _, rfl, rfl, hm⟩) fun _ => ?_
    exact agrees_produce (b.isResult_apply args)
  | function params body scope =>
    unfold applyWith Walk.apply
    by_cases harity : args.length ≠ params.length
    · simp only [if_pos harity]
      exact agrees_abort _
    · simp only [if_neg harity]
      refine agrees_depth fun m hd => ?_
      rw [hd]
      by_cases hdepth : maxDepth ≤ d
      · simp only [if_pos hdepth]
        exact agrees_abort _
      · simp only [if_neg hdepth]
        refine Agrees.after (fun m hm => ⟨m.heap.nextId, _, rfl, rfl, ?_⟩) fun inner => ?_
        · exact (hm.addInside scope).bindAll _ (forall_mem_bindings hargs)
        · refine (h (d + 1) body inner).called.bind (fun f => rfl) ?_
          intro v hv
          exact agrees_pure (Value.faultless_arrived hv)
  | _ => exact agrees_abort _

/-- One node: one case for each kind, and in each the subtrees agree. -/
theorem agrees_evalWith {eval : Node → ScopeId → Eval Value}
    {walk : Nat → Node → ScopeId → Walk Value}
    (h : ∀ d e scope, AgreesOnValue d (eval e scope) (walk d e scope)) (node : Node)
    (scope : ScopeId) :
    AgreesOnValue d (evalWith maxDepth eval node scope)
      (Walk.tree maxDepth d walk node scope) := by
  have hhere : ∀ e, AgreesOnValue d (eval e scope) (walk d e scope) := fun e => h d e scope
  cases node with
  | program _ ss =>
    refine (agrees_runStatements hhere ss rfl).bind (fun f => rfl) ?_
    intro v hv
    exact agrees_pure (Value.faultless_arrived hv)
  | block _ ss => exact agrees_runStatements hhere ss rfl
  | statement _ e => exact hhere e
  | binding _ name e =>
    refine (hhere e).checked ?_
    intro v hv
    refine Agrees.after (agrees_bindName scope name hv) fun _ => ?_
    exact agrees_pure hv
  | returning _ e =>
    refine (hhere e).checked ?_
    intro v hv
    exact agrees_pure hv
  | integer | boolean | string | function => exact agrees_pure rfl
  | identifier _ text => exact agrees_evalName scope text
  | unary _ op e =>
    refine (hhere e).checked ?_
    intro v _
    exact agrees_produce (Value.isResult_unary op v)
  | binary _ l op r =>
    refine (hhere l).checked ?_
    intro lv _
    refine (hhere r).checked ?_
    intro rv _
    exact agrees_produce (Value.isResult_binary op lv rv)
  | conditional _ c t e =>
    refine (hhere c).checked ?_
    intro v _
    by_cases htruthy : v.truthy = true
    · simp only [if_pos htruthy]
      exact hhere t
    · simp only [if_neg htruthy]
      cases e with
      | some e => exact hhere e
      | none => exact agrees_pure rfl
  | call _ f args =>
    refine (hhere f).checked ?_
    intro fv _
    refine (agrees_evalArguments hhere args).bind (fun f => rfl) ?_
    intro vs hvs
    exact agrees_applyWith h fv hvs
  | bare pos => exact agrees_throw _

/-- **The two evaluators agree on every tree**, by induction on the room for active nodes. -/
theorem agrees_evalNode (maxDepth budget : Nat) :
    ∀ d node scope, AgreesOnValue d (evalNode maxDepth budget node scope)
      (Walk.node maxDepth budget d node scope) := by
  induction budget with
  | zero => exact fun _ _ _ => agrees_abort _
  | succ budget ih => exact fun _ node scope => (agrees_evalWith ih node scope).nested

/-! ## Whole runs -/

/-- The machines that runs can come to, from one with no scopes. Between runs, scopes may be added
and what was printed may be taken away. -/
inductive Reached : Machine → Prop
  | start : Reached ⟨Heap.empty, [], 0, 0⟩
  | addOutermost {m : Machine} : Reached m → Reached { m with heap := m.heap.addOutermost }
  | addInside {m : Machine} (i : ScopeId) :
      Reached m → Reached { m with heap := m.heap.addInside i }
  | flush {m : Machine} : Reached m → Reached { m with printed := [] }
  | run {m : Machine} (maxDepth : Nat) (node : Node) (scope : ScopeId) :
      Reached m → Reached (evaluate maxDepth node scope m).2

/-- What holds of a machine between runs: no call and no node is active, and no scope binds a
fault. -/
structure Machine.Resting (m : Machine) : Prop where
  depth : m.depth = 0
  nesting : m.nesting = 0
  heap : m.heap.Faultless

/-- A run from a resting machine does what the walk does, and ends in a resting machine. -/
theorem Machine.Resting.evaluate {m : Machine} (hm : m.Resting) (maxDepth : Nat) (node : Node)
    (scope : ScopeId) :
    evaluate maxDepth node scope m =
        (reported valueOf (Walk.run maxDepth node scope m.world).1,
          m.withWorld (Walk.run maxDepth node scope m.world).2) ∧
      (evaluate maxDepth node scope m).2.Resting := by
  have hbudget : Eval.evaluate maxDepth node scope m =
      evalNode maxDepth (nestingLimit maxDepth - m.nesting) node scope m := rfl
  rw [hm.nesting, Nat.sub_zero] at hbudget
  obtain ⟨hrun, hheap, -⟩ :=
    agrees_evalNode maxDepth (nestingLimit maxDepth) 0 node scope m hm.depth hm.heap
  rw [hbudget, hrun]
  exact ⟨rfl, hm.depth, hm.nesting, hheap⟩

theorem Reached.resting {m : Machine} (hm : Reached m) : m.Resting := by
  induction hm with
  | start => exact ⟨rfl, rfl, Heap.Faultless.empty⟩
  | addOutermost _ ih => exact ⟨ih.depth, ih.nesting, ih.heap.addOutermost⟩
  | addInside i _ ih => exact ⟨ih.depth, ih.nesting, ih.heap.addInside i⟩
  | flush _ ih => exact ⟨ih.depth, ih.nesting, ih.heap⟩
  | run maxDepth node scope _ ih => exact (ih.evaluate maxDepth node scope).2

/-- **A fault ends the run.** From every machine that runs can come to, evaluation gives what the
walk gives, which a fault cuts off on the spot: the same result, with the very fault, the same
printed lines and the same scopes. -/
theorem evaluate_eq_run {m : Machine} (hm : Reached m) (maxDepth : Nat) (node : Node)
    (scope : ScopeId) :
    evaluate maxDepth node scope m =
      (reported valueOf (Walk.run maxDepth node scope m.world).1,
        m.withWorld (Walk.run maxDepth node scope m.world).2) :=
  (hm.resting.evaluate maxDepth node scope).1

section

open Syntax.Node

/-- Makes a function that prints its argument, then fails, and has more to print. -/
def definesFaulty : Node :=
  let x := identifier .start "x"
  let puts := identifier .start "puts"
  program .start [binding .start (identifier .start "f") (function .start [x] (block .start [
    statement .start (call .start puts [x]),
    statement .start (binary .start x "+" (boolean .start true)),
    statement .start (call .start puts [integer .start 2])]))]

/-- Calls the function inside a list of arguments, and binds a name afterwards. -/
def callsFaulty : Node :=
  let failing := call .start (identifier .start "f") [integer .start 1]
  program .start [
    statement .start (call .start (identifier .start "puts") [failing, failing]),
    binding .start (identifier .start "y") (integer .start 3)]

theorem evaluate_callsFaulty :
    let m := (evaluate 1 definesFaulty 0 .initial).2
    Reached m ∧
      evaluate 1 callsFaulty 0 m = (reported valueOf (Walk.run 1 callsFaulty 0 m.world).1,
        m.withWorld (Walk.run 1 callsFaulty 0 m.world).2) ∧
      (evaluate 1 callsFaulty 0 m).1.toOption.map Value.inspect =
        some "ERROR: type mismatch: INTEGER + BOOLEAN" ∧
      (evaluate 1 callsFaulty 0 m).2.printed.map Line.text = ["1"] ∧
      ((evaluate 1 callsFaulty 0 m).2.heap.find? 0 "y").isNone := by
  have hm : Reached (evaluate 1 definesFaulty 0 .initial).2 :=
    Reached.start.addOutermost.run 1 definesFaulty 0
  exact ⟨hm, evaluate_eq_run hm 1 callsFaulty 0, by decide +kernel, by decide +kernel,
    by decide +kernel⟩

end

end Scriptlet.Eval
