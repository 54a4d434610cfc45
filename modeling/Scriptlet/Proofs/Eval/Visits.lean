import Scriptlet.Eval.Node
import Scriptlet.Proofs.Run

/-!
# The points of a run

To evaluate a tree is to evaluate trees under it, or the body of a function, one after the other.
Here is which of them a run comes to, and with which machine.

* `Calls`: the trees that are evaluated for one tree, with the scope and the machine of each.
* `evalWith_congr`: none is missing; the value of a tree depends on the values of these alone.
* `Visits`: all trees that are evaluated in a run.
* `Session`: what runs can come to when only some trees are allowed.
-/

namespace Scriptlet.Eval

open Syntax (Node)

/-! ## The trees of a list -/

/-- Evaluating the trees of a list from left to right, up to a value that `stop` holds of, comes
to the tree `e` with the machine `m'`. -/
inductive Comes (stop : Value → Bool) (eval : Node → Eval Value) :
    List Node → Machine → Node → Machine → Prop
  | here {e : Node} {es : List Node} {m : Machine} : Comes stop eval (e :: es) m e m
  | later {e e' : Node} {es : List Node} {v : Value} {m m₁ m' : Machine} :
      eval e m = (.ok v, m₁) → stop v = false → Comes stop eval es m₁ e' m' →
      Comes stop eval (e :: es) m e' m'

theorem runStatements_congr {eval eval' : Node → Eval Value} {ss : List Node} {m : Machine}
    (h : ∀ e m', Comes Value.stops eval ss m e m' → eval' e m' = eval e m') (last : Value) :
    runStatements eval' last ss m = runStatements eval last ss m := by
  induction ss generalizing last m with
  | nil => rfl
  | cons s ss ih =>
    rw [runStatements, runStatements, bind_run, bind_run, h s m .here]
    rcases hs : eval s m with ⟨err | v, m₁⟩
    · rfl
    · by_cases hstops : v.stops = true
      · simp only [if_pos hstops]
      · simp only [if_neg hstops]
        exact ih (fun e m' hcomes => h e m' (.later hs (by simpa using hstops) hcomes)) v

theorem evalArguments_congr {eval eval' : Node → Eval Value} {es : List Node} {m : Machine}
    (h : ∀ e m', Comes Value.isFault eval es m e m' → eval' e m' = eval e m') :
    evalArguments eval' es m = evalArguments eval es m := by
  induction es generalizing m with
  | nil => rfl
  | cons e es ih =>
    rw [evalArguments, evalArguments, bind_run, bind_run, h e m .here]
    rcases he : eval e m with ⟨err | v, m₁⟩
    · rfl
    · cases v with
      | fault f => rfl
      | _ =>
        dsimp only
        rw [bind_run, bind_run, ih fun e m' hcomes => h e m' (.later he rfl hcomes)]

/-! ## One tree -/

/-- The machine in which the body of a function runs: with a scope for its parameters, and one
more active call. -/
def Machine.entered (m : Machine) (scope : ScopeId) (params : List Node) (args : List Value) :
    Machine :=
  { m with
    heap := (m.heap.addInside scope).bindAll m.heap.nextId (bindings params args)
    depth := m.depth + 1 }

section

variable (maxDepth : Nat) (eval : Node → ScopeId → Eval Value)

/-- The trees that are evaluated for one tree: `Calls maxDepth eval n i m n' i' m'` says that to
evaluate `n` in the scope `i` with the machine `m`, where `eval` evaluates what is under it, is to
evaluate `n'` in the scope `i'` with the machine `m'`. -/
inductive Calls : Node → ScopeId → Machine → Node → ScopeId → Machine → Prop
  | program {pos ss i m e m'} :
      Comes Value.stops (eval · i) ss m e m' → Calls (.program pos ss) i m e i m'
  | block {pos ss i m e m'} :
      Comes Value.stops (eval · i) ss m e m' → Calls (.block pos ss) i m e i m'
  | statement {pos e i m} : Calls (.statement pos e) i m e i m
  | binding {pos name e i m} : Calls (.binding pos name e) i m e i m
  | returning {pos e i m} : Calls (.returning pos e) i m e i m
  | unary {pos op e i m} : Calls (.unary pos op e) i m e i m
  | left {pos l op r i m} : Calls (.binary pos l op r) i m l i m
  | right {pos l op r i v m m₁} :
      eval l i m = (.ok v, m₁) → v.isFault = false → Calls (.binary pos l op r) i m r i m₁
  | condition {pos c t e i m} : Calls (.conditional pos c t e) i m c i m
  | consequence {pos c t e i v m m₁} :
      eval c i m = (.ok v, m₁) → v.isFault = false → v.truthy →
      Calls (.conditional pos c t e) i m t i m₁
  | alternative {pos c t e i v m m₁} :
      eval c i m = (.ok v, m₁) → v.isFault = false → v.truthy = false →
      Calls (.conditional pos c t (some e)) i m e i m₁
  | callee {pos f args i m} : Calls (.call pos f args) i m f i m
  | argument {pos f args i v m m₁ e m'} :
      eval f i m = (.ok v, m₁) → v.isFault = false → Comes Value.isFault (eval · i) args m₁ e m' →
      Calls (.call pos f args) i m e i m'
  | body {pos f args i params body scope vs m m₁ m₂} :
      eval f i m = (.ok (.function params body scope), m₁) →
      evalArguments (eval · i) args m₁ = (.ok (.ok vs), m₂) →
      vs.length = params.length → m₂.depth < maxDepth →
      Calls (.call pos f args) i m body m₂.heap.nextId (m₂.entered scope params vs)

end

section

variable {maxDepth : Nat} {eval eval' : Node → ScopeId → Eval Value} {m : Machine}

theorem bind_congr {α β : Type} {act act' : Eval α} {k k' : α → Eval β} (h : act' m = act m)
    (hk : ∀ a m₁, act m = (.ok a, m₁) → k' a m₁ = k a m₁) :
    (act' >>= k') m = (act >>= k) m := by
  rw [bind_run, bind_run, h]
  rcases ha : act m with ⟨err | a, m₁⟩
  · rfl
  · exact hk a m₁ ha

theorem checked_congr {act act' : Eval Value} {k k' : Value → Eval Value} (h : act' m = act m)
    (hk : ∀ v m₁, act m = (.ok v, m₁) → v.isFault = false → k' v m₁ = k v m₁) :
    (act' >>= fun v => if v.isFault then pure v else k' v) m =
      (act >>= fun v => if v.isFault then pure v else k v) m := by
  refine bind_congr h fun v m₁ ha => ?_
  by_cases hfault : v.isFault = true
  · simp only [if_pos hfault]
  · simp only [if_neg hfault]
    exact hk v m₁ ha (by simpa using hfault)

theorem called_congr {act act' : Eval Value}
    (h : act' { m with depth := m.depth + 1 } = act { m with depth := m.depth + 1 }) :
    called act' m = called act m := by
  unfold called ExceptT.mk
  dsimp only
  rw [h]

theorem applyWith_congr {f : Value} {args : List Value}
    (h : ∀ params body scope, f = .function params body scope → args.length = params.length →
      m.depth < maxDepth →
      eval' body m.heap.nextId (m.entered scope params args) =
        eval body m.heap.nextId (m.entered scope params args)) :
    applyWith maxDepth eval' f args m = applyWith maxDepth eval f args m := by
  cases f with
  | function params body scope =>
    unfold applyWith
    by_cases harity : args.length ≠ params.length
    · simp only [if_pos harity]
    · simp only [if_neg harity, get_bind_run]
      by_cases hdepth : maxDepth ≤ m.depth
      · simp only [if_pos hdepth]
      · simp only [if_neg hdepth]
        have hbody := h params body scope rfl (by omega) (by omega)
        let heap := (m.heap.addInside scope).bindAll m.heap.nextId (bindings params args)
        show (called (eval' body m.heap.nextId) >>= fun v => pure v.arrived) { m with heap } =
          (called (eval body m.heap.nextId) >>= fun v => pure v.arrived) { m with heap }
        rw [bind_run, bind_run, called_congr hbody]
  | _ => rfl

/-- **No call is missing.** The value of a tree, and what is left of the machine, depend on how
trees are evaluated only at the calls of that tree. -/
theorem evalWith_congr {node : Node} {i : ScopeId}
    (h : ∀ n' i' m', Calls maxDepth eval node i m n' i' m' → eval' n' i' m' = eval n' i' m') :
    evalWith maxDepth eval' node i m = evalWith maxDepth eval node i m := by
  cases node with
  | program _ ss =>
    refine bind_congr ?_ fun _ _ _ => rfl
    exact runStatements_congr (fun e m' hcomes => h e i m' (.program hcomes)) .null
  | block _ ss =>
    exact runStatements_congr (fun e m' hcomes => h e i m' (.block hcomes)) .null
  | statement _ e => exact h e i m .statement
  | binding _ name e => exact checked_congr (h e i m .binding) fun _ _ _ _ => rfl
  | returning _ e => exact checked_congr (h e i m .returning) fun _ _ _ _ => rfl
  | integer | boolean | string | function | identifier | bare => rfl
  | unary _ op e => exact checked_congr (h e i m .unary) fun _ _ _ _ => rfl
  | binary _ l op r =>
    refine checked_congr (h l i m .left) fun v m₁ hl hfault => ?_
    exact checked_congr (h r i m₁ (.right hl hfault)) fun _ _ _ _ => rfl
  | conditional _ c t e =>
    refine checked_congr (h c i m .condition) fun v m₁ hc hfault => ?_
    by_cases htruthy : v.truthy = true
    · simp only [if_pos htruthy]
      exact h t i m₁ (.consequence hc hfault htruthy)
    · simp only [if_neg htruthy]
      cases e with
      | some e => exact h e i m₁ (.alternative hc hfault (by simpa using htruthy))
      | none => rfl
  | call _ f args =>
    refine checked_congr (h f i m .callee) fun v m₁ hf hfault => ?_
    refine bind_congr ?_ fun result m₂ hargs => ?_
    · exact evalArguments_congr fun e m' hcomes => h e i m' (.argument hf hfault hcomes)
    · rcases result with fault | vs
      · rfl
      · refine applyWith_congr fun params body scope hv harity hdepth => ?_
        subst hv
        exact h body _ _ (.body hf hargs harity hdepth)

end

/-! ## Whole runs -/

/-- The trees that are evaluated in a run: `Visits maxDepth b n i m b' n' i' m'` says that to
evaluate `n` in the scope `i` with the machine `m` and room for `b` active nodes is to evaluate `n'`
in the scope `i'` with the machine `m'` and room for `b'`. -/
inductive Visits (maxDepth : Nat) :
    Nat → Node → ScopeId → Machine → Nat → Node → ScopeId → Machine → Prop
  | here {b n i m} : Visits maxDepth b n i m b n i m
  | inside {b n i m n₁ i₁ m₁ b' n' i' m'} :
      Calls maxDepth (evalNode maxDepth b) n i { m with nesting := m.nesting + 1 } n₁ i₁ m₁ →
      Visits maxDepth b n₁ i₁ m₁ b' n' i' m' → Visits maxDepth (b + 1) n i m b' n' i' m'

/-- The machines that runs of the allowed trees can come to, from one with no scopes. Between runs,
scopes may be added and what was printed may be taken away. -/
inductive Session (allowed : Node → Prop) : Machine → Prop
  | start : Session allowed ⟨Heap.empty, [], 0, 0⟩
  | addOutermost {m : Machine} :
      Session allowed m → Session allowed { m with heap := m.heap.addOutermost }
  | addInside {m : Machine} (i : ScopeId) :
      Session allowed m → Session allowed { m with heap := m.heap.addInside i }
  | flush {m : Machine} : Session allowed m → Session allowed { m with printed := [] }
  | run {m : Machine} (maxDepth : Nat) {n : Node} (i : ScopeId) :
      Session allowed m → allowed n → Session allowed (evaluate maxDepth n i m).2

end Scriptlet.Eval
