import Scriptlet.Proofs.Eval.Visits

/-!
# How many calls and nodes are active

A run counts the calls and the nodes that are active, and refuses to go above a limit on either.
That alone makes every run end, whatever its functions do, and both counts are the same again when
it ends, also when it cannot go on at a node somewhere deep inside.

* `Restoring`: a computation that leaves the counters as it finds them; all evaluation does.
* `evaluate_run`: a node is refused where the limit is reached, and counted while it is evaluated.
* `Halts`: evaluation as a relation that knows of no budget.
* `Active`: where a run comes to, and how many calls and nodes are active there.
* `evaluate_restores`: the main statement.
-/

namespace Scriptlet.Eval

open Syntax (Node)

/-! ## Counters that are restored -/

section

variable {α β : Type}

/-- The computation leaves both counters as it finds them, whether it gives a result or cannot go
on. -/
class Restoring (act : Eval α) : Prop where
  depth : ∀ m, (act m).2.depth = m.depth
  nesting : ∀ m, (act m).2.nesting = m.nesting

instance (a : α) : Restoring (pure a) := ⟨fun _ => rfl, fun _ => rfl⟩

instance (e : Meaningless) : Restoring (throw e : Eval α) := ⟨fun _ => rfl, fun _ => rfl⟩

instance : Restoring (get : Eval Machine) := ⟨fun _ => rfl, fun _ => rfl⟩

instance (lines : List Line) : Restoring (print lines) := ⟨fun _ => rfl, fun _ => rfl⟩

instance (scope : ScopeId) (bs : List (String × Value)) : Restoring (enclose scope bs) :=
  ⟨fun _ => rfl, fun _ => rfl⟩

instance (scope : ScopeId) (name : Node) (v : Value) : Restoring (bindName scope name v) := by
  unfold bindName
  cases name.boundName? with
  | none => exact inferInstanceAs (Restoring (pure ()))
  | some text => exact ⟨fun _ => rfl, fun _ => rfl⟩

theorem Restoring.bind {act : Eval α} {k : α → Eval β} (h : Restoring act)
    (hk : ∀ a, Restoring (k a)) : Restoring (act >>= k) := by
  have hrun : ∀ m, ((act >>= k) m).2.depth = m.depth ∧ ((act >>= k) m).2.nesting = m.nesting := by
    intro m
    have hdepth := h.depth m
    have hnesting := h.nesting m
    rw [bind_run]
    rcases hact : act m with ⟨err | a, m₁⟩
    · rw [hact] at hdepth hnesting
      exact ⟨hdepth, hnesting⟩
    · rw [hact] at hdepth hnesting
      exact ⟨((hk a).depth m₁).trans hdepth, ((hk a).nesting m₁).trans hnesting⟩
  exact ⟨fun m => (hrun m).1, fun m => (hrun m).2⟩

instance {act : Eval α} {k : α → Eval β} [h : Restoring act] [hk : ∀ a, Restoring (k a)] :
    Restoring (act >>= k) := h.bind hk

instance {c : Prop} [Decidable c] {act act' : Eval α} [h : Restoring act] [h' : Restoring act'] :
    Restoring (if c then act else act') := by
  split
  · exact h
  · exact h'

/-- One more node is active inside, and not any more afterwards. -/
instance {act : Eval α} [h : Restoring act] : Restoring (nested act) where
  depth m := h.depth { m with nesting := m.nesting + 1 }
  nesting m := by
    show (act { m with nesting := m.nesting + 1 }).2.nesting - 1 = m.nesting
    rw [h.nesting]
    rfl

/-- One more call is active inside, and not any more afterwards. -/
instance {act : Eval α} [h : Restoring act] : Restoring (called act) where
  depth m := by
    show (act { m with depth := m.depth + 1 }).2.depth - 1 = m.depth
    rw [h.depth]
    rfl
  nesting m := h.nesting { m with depth := m.depth + 1 }

end

section

variable {eval : Node → Eval Value}

theorem restoring_runStatements (h : ∀ s, Restoring (eval s)) (ss : List Node) (last : Value) :
    Restoring (runStatements eval last ss) := by
  induction ss generalizing last with
  | nil => exact inferInstanceAs (Restoring (pure last))
  | cons s ss ih =>
    have (v : Value) : Restoring (runStatements eval v ss) := ih v
    exact inferInstanceAs (Restoring (eval s >>= _))

theorem restoring_evalArguments (h : ∀ e, Restoring (eval e)) (es : List Node) :
    Restoring (evalArguments eval es) := by
  induction es with
  | nil => exact inferInstanceAs (Restoring (pure _))
  | cons e es ih =>
    refine (h e).bind fun v => ?_
    cases v with
    | fault f => exact inferInstanceAs (Restoring (pure _))
    | _ =>
      refine ih.bind ?_
      rintro (f | vs)
      · exact inferInstanceAs (Restoring (pure _))
      · exact inferInstanceAs (Restoring (pure _))

end

instance (scope : ScopeId) (text : String) : Restoring (evalName scope text) := by
  refine Restoring.bind inferInstance fun m => ?_
  cases m.heap.find? scope text with
  | some v => exact inferInstanceAs (Restoring (pure v))
  | none =>
    cases Builtin.ofName? text with
    | some b => exact inferInstanceAs (Restoring (pure _))
    | none => exact inferInstanceAs (Restoring (pure _))

section

variable {maxDepth : Nat} {eval : Node → ScopeId → Eval Value}

theorem restoring_applyWith (h : ∀ n i, Restoring (eval n i)) (f : Value) (args : List Value) :
    Restoring (applyWith maxDepth eval f args) := by
  cases f with
  | builtin b => exact inferInstanceAs (Restoring (print _ >>= _))
  | function params body scope => exact inferInstanceAs (Restoring (ite _ _ _))
  | _ => exact inferInstanceAs (Restoring (pure _))

/-- One node: one case for each kind. -/
theorem restoring_evalWith (h : ∀ n i, Restoring (eval n i)) (node : Node) (i : ScopeId) :
    Restoring (evalWith maxDepth eval node i) := by
  cases node with
  | program _ ss =>
    exact (restoring_runStatements (h · i) ss .null).bind fun v => inferInstance
  | block _ ss => exact restoring_runStatements (h · i) ss .null
  | statement _ e => exact h e i
  | binding _ name e => exact inferInstanceAs (Restoring (eval e i >>= _))
  | returning _ e => exact inferInstanceAs (Restoring (eval e i >>= _))
  | integer | boolean | string | function => exact inferInstanceAs (Restoring (pure _))
  | identifier _ text => exact inferInstanceAs (Restoring (evalName i text))
  | unary _ op e => exact inferInstanceAs (Restoring (eval e i >>= _))
  | binary _ l op r => exact inferInstanceAs (Restoring (eval l i >>= _))
  | conditional _ c t e =>
    cases e with
    | some e => exact inferInstanceAs (Restoring (eval c i >>= _))
    | none => exact inferInstanceAs (Restoring (eval c i >>= _))
  | call _ f args =>
    refine (h f i).bind fun fv => ?_
    split
    · exact inferInstanceAs (Restoring (pure fv))
    · refine (restoring_evalArguments (h · i) args).bind ?_
      rintro (fault | vs)
      · exact inferInstanceAs (Restoring (pure _))
      · exact restoring_applyWith h fv vs
  | bare pos => exact inferInstanceAs (Restoring (throw _))

end

/-- **Evaluation leaves the counters as it finds them**, by induction on the room for active
nodes. -/
theorem restoring_evalNode (maxDepth budget : Nat) (n : Node) (i : ScopeId) :
    Restoring (evalNode maxDepth budget n i) := by
  induction budget generalizing n i with
  | zero => exact inferInstanceAs (Restoring (pure _))
  | succ budget ih =>
    have hbody : Restoring (evalWith maxDepth (evalNode maxDepth budget) n i) :=
      restoring_evalWith ih n i
    exact inferInstanceAs (Restoring (nested _))

instance (maxDepth : Nat) (n : Node) (i : ScopeId) : Restoring (evaluate maxDepth n i) where
  depth m := (restoring_evalNode maxDepth (nestingLimit maxDepth - m.nesting) n i).depth m
  nesting m := (restoring_evalNode maxDepth (nestingLimit maxDepth - m.nesting) n i).nesting m

/-! ## The counters at the trees that are evaluated -/

/-- The machine in which a node is active. -/
def Machine.within (m : Machine) : Machine := { m with nesting := m.nesting + 1 }

theorem nested_congr {act act' : Eval Value} {m : Machine} (h : act' m.within = act m.within) :
    nested act' m = nested act m := by
  unfold Machine.within at h
  unfold nested ExceptT.mk
  dsimp only
  rw [h]

section

variable {maxDepth : Nat} {eval : Node → ScopeId → Eval Value}

/-- The counters are what they were before a tree was evaluated. -/
theorem counters_of_run (h : ∀ n i, Restoring (eval n i)) {n : Node} {i : ScopeId} {v : Value}
    {m m₁ : Machine} (hrun : eval n i m = (.ok v, m₁)) :
    m₁.depth = m.depth ∧ m₁.nesting = m.nesting := by
  have hdepth := (h n i).depth m
  have hnesting := (h n i).nesting m
  rw [hrun] at hdepth hnesting
  exact ⟨hdepth, hnesting⟩

theorem Comes.counters (h : ∀ n i, Restoring (eval n i)) {stop : Value → Bool} {i : ScopeId}
    {es : List Node} {m m' : Machine} {e : Node} (hcomes : Comes stop (eval · i) es m e m') :
    m'.depth = m.depth ∧ m'.nesting = m.nesting := by
  induction hcomes with
  | here => exact ⟨rfl, rfl⟩
  | later hrun _ _ ih =>
    obtain ⟨hdepth, hnesting⟩ := counters_of_run h hrun
    exact ⟨ih.1.trans hdepth, ih.2.trans hnesting⟩

/-- Of the trees that are evaluated for a call, the body of the function that is called. -/
inductive Enters (maxDepth : Nat) (eval : Node → ScopeId → Eval Value) :
    Node → ScopeId → Machine → Node → ScopeId → Machine → Prop
  | body {pos f args i params body scope vs m m₁ m₂} :
      eval f i m = (.ok (.function params body scope), m₁) →
      evalArguments (eval · i) args m₁ = (.ok (.ok vs), m₂) →
      vs.length = params.length → m₂.depth < maxDepth →
      Enters maxDepth eval (.call pos f args) i m body m₂.heap.nextId (m₂.entered scope params vs)

/-- A function is entered below the limit on calls only, and its call is counted. -/
theorem Enters.counters (h : ∀ n i, Restoring (eval n i)) {n n' : Node} {i i' : ScopeId}
    {m m' : Machine} (henters : Enters maxDepth eval n i m n' i' m') :
    m'.nesting = m.nesting ∧ m'.depth = m.depth + 1 ∧ m.depth < maxDepth := by
  cases henters with
  | @body _ _ args _ _ _ _ _ _ m₁ m₂ hrun hargs _ hlt =>
    obtain ⟨hdepth, hnesting⟩ := counters_of_run h hrun
    have hrest := restoring_evalArguments (h · i) args
    have hdepth' := hrest.depth m₁
    have hnesting' := hrest.nesting m₁
    rw [hargs] at hdepth' hnesting'
    have hsame : m₂.depth = m.depth := hdepth'.trans hdepth
    exact ⟨hnesting'.trans hnesting, congrArg (· + 1) hsame, hsame ▸ hlt⟩

/-- **What is evaluated for a tree finds its counters**, unless it is the body of a function. -/
theorem Calls.counters (h : ∀ n i, Restoring (eval n i)) {n n' : Node} {i i' : ScopeId}
    {m m' : Machine} (hcalls : Calls maxDepth eval n i m n' i' m') :
    m'.nesting = m.nesting ∧ (m'.depth = m.depth ∨ Enters maxDepth eval n i m n' i' m') := by
  cases hcalls with
  | program hcomes | block hcomes =>
    obtain ⟨hdepth, hnesting⟩ := hcomes.counters h
    exact ⟨hnesting, .inl hdepth⟩
  | statement | binding | returning | unary | left | condition | callee => exact ⟨rfl, .inl rfl⟩
  | right hrun | consequence hrun | alternative hrun =>
    obtain ⟨hdepth, hnesting⟩ := counters_of_run h hrun
    exact ⟨hnesting, .inl hdepth⟩
  | argument hrun _ hcomes =>
    obtain ⟨hdepth, hnesting⟩ := counters_of_run h hrun
    obtain ⟨hdepth', hnesting'⟩ := hcomes.counters h
    exact ⟨hnesting'.trans hnesting, .inl (hdepth'.trans hdepth)⟩
  | @body pos f args _ _ _ _ _ _ _ _ hrun hargs harity hlt =>
    have henters : Enters maxDepth eval (.call pos f args) i m _ _ _ :=
      .body hrun hargs harity hlt
    exact ⟨(henters.counters h).1, .inr henters⟩

end

section

variable {maxDepth : Nat} {n n' : Node} {i i' : ScopeId} {m m' : Machine}

/-- **A node is refused where the limit on active nodes is reached**, and otherwise evaluated with
one more of them active. The room that the limit leaves is known from the counter. -/
theorem evaluate_run (maxDepth : Nat) (n : Node) (i : ScopeId) (m : Machine) :
    evaluate maxDepth n i m =
      if nestingLimit maxDepth ≤ m.nesting then
        (.ok (.fault (.tooManyNodes (nestingLimit maxDepth))), m)
      else nested (evalWith maxDepth (evaluate maxDepth) n i) m := by
  show evalNode maxDepth (nestingLimit maxDepth - m.nesting) n i m = _
  split
  · rename_i hfull
    rw [Nat.sub_eq_zero_of_le hfull]
    rfl
  · rename_i hroom
    obtain ⟨budget, hbudget⟩ : ∃ budget, nestingLimit maxDepth - m.nesting = budget + 1 :=
      ⟨nestingLimit maxDepth - m.nesting - 1, by omega⟩
    rw [hbudget]
    -- what is evaluated under the node finds one more active, and so the budget that is left
    refine (nested_congr (evalWith_congr fun n' i' m' hcalls => ?_)).symm
    have hnesting : m'.nesting = m.nesting + 1 :=
      (hcalls.counters (restoring_evalNode maxDepth budget)).1
    have hleft : nestingLimit maxDepth - m'.nesting = budget := by omega
    show evalNode maxDepth (nestingLimit maxDepth - m'.nesting) n' i' m' = _
    rw [hleft]

/-! ## Runs end -/

/-- Evaluation that knows of no budget. `Halts maxDepth n i m r` says that to evaluate `n` in the
scope `i` with the machine `m` comes to `r`: the node is refused where the limit is reached, and
otherwise all that is evaluated for it comes to what `eval` says. -/
inductive Halts (maxDepth : Nat) :
    Node → ScopeId → Machine → Except Meaningless Value × Machine → Prop
  | refused {n : Node} {i : ScopeId} {m : Machine} : nestingLimit maxDepth ≤ m.nesting →
      Halts maxDepth n i m (.ok (.fault (.tooManyNodes (nestingLimit maxDepth))), m)
  | active {n : Node} {i : ScopeId} {m : Machine} (eval : Node → ScopeId → Eval Value) :
      m.nesting < nestingLimit maxDepth →
      (∀ n' i' m', Calls maxDepth eval n i m.within n' i' m' →
        Halts maxDepth n' i' m' (eval n' i' m')) →
      Halts maxDepth n i m (nested (evalWith maxDepth eval n i) m)

theorem halts_evaluate (maxDepth : Nat) (n : Node) (i : ScopeId) (m : Machine) :
    Halts maxDepth n i m (evaluate maxDepth n i m) := by
  induction hroom : nestingLimit maxDepth - m.nesting generalizing n i m with
  | zero =>
    have hfull : nestingLimit maxDepth ≤ m.nesting := Nat.sub_eq_zero_iff_le.1 hroom
    rw [evaluate_run, if_pos hfull]
    exact .refused hfull
  | succ room ih =>
    have hlt : m.nesting < nestingLimit maxDepth := by omega
    rw [evaluate_run, if_neg (Nat.not_le.2 hlt)]
    refine .active _ hlt fun n' i' m' hcalls => ih n' i' m' ?_
    have hnesting : m'.nesting = m.nesting + 1 := (hcalls.counters fun _ _ => inferInstance).1
    omega

/-- What evaluation comes to is what the evaluator gives: nothing else is asked of `eval` than what
a node calls for. -/
theorem Halts.eq_evaluate {r : Except Meaningless Value × Machine} (h : Halts maxDepth n i m r) :
    r = evaluate maxDepth n i m := by
  induction h with
  | refused hfull => rw [evaluate_run, if_pos hfull]
  | @active n i m eval hlt _ ih =>
    rw [evaluate_run, if_neg (Nat.not_le.2 hlt)]
    refine (nested_congr (evalWith_congr fun n' i' m' hcalls => ?_)).symm
    exact (ih n' i' m' hcalls).symm

/-! ## The number of active calls and nodes -/

/-- Where a run of `n` comes to: it evaluates the tree with the machine, while `calls` more calls
and `nodes` more nodes are active than at its start. A node is active while what is under it is
evaluated, and a call while the body of its function is. -/
inductive Active (maxDepth : Nat) (n : Node) (i : ScopeId) (m : Machine) :
    (calls nodes : Nat) → Node → ScopeId → Machine → Prop
  | start : Active maxDepth n i m 0 0 n i m
  | node {calls nodes n₁ i₁ m₁ n₂ i₂ m₂} : Active maxDepth n i m calls nodes n₁ i₁ m₁ →
      m₁.nesting < nestingLimit maxDepth →
      Calls maxDepth (evaluate maxDepth) n₁ i₁ m₁.within n₂ i₂ m₂ →
      ¬ Enters maxDepth (evaluate maxDepth) n₁ i₁ m₁.within n₂ i₂ m₂ →
      Active maxDepth n i m calls (nodes + 1) n₂ i₂ m₂
  | call {calls nodes n₁ i₁ m₁ n₂ i₂ m₂} : Active maxDepth n i m calls nodes n₁ i₁ m₁ →
      m₁.nesting < nestingLimit maxDepth →
      Enters maxDepth (evaluate maxDepth) n₁ i₁ m₁.within n₂ i₂ m₂ →
      Active maxDepth n i m (calls + 1) (nodes + 1) n₂ i₂ m₂

/-- **The counters count.** They tell how many calls and nodes are active, and no step of a run
brings one of them above its limit. -/
theorem Active.counters {calls nodes : Nat} (h : Active maxDepth n i m calls nodes n' i' m')
    (hdepth : m.depth ≤ maxDepth) (hnesting : m.nesting ≤ nestingLimit maxDepth) :
    m'.depth = m.depth + calls ∧ m'.nesting = m.nesting + nodes ∧
      m'.depth ≤ maxDepth ∧ m'.nesting ≤ nestingLimit maxDepth := by
  induction h with
  | start => exact ⟨rfl, rfl, hdepth, hnesting⟩
  | @node calls nodes _ _ m₁ _ _ m₂ _ hroom hcalls hstays ih =>
    obtain ⟨hcount, hlimit | henters⟩ := hcalls.counters fun _ _ => inferInstance
    · have hwithin : m₁.within.nesting = m₁.nesting + 1 := rfl
      have hsame : m₁.within.depth = m₁.depth := rfl
      omega
    · exact absurd henters hstays
  | @call calls nodes _ _ m₁ _ _ m₂ _ hroom henters ih =>
    obtain ⟨hcount, hlimit⟩ := henters.counters fun _ _ => inferInstance
    have hwithin : m₁.within.nesting = m₁.nesting + 1 := rfl
    have hsame : m₁.within.depth = m₁.depth := rfl
    omega

end

/-- **Runs end, within the limits, and leave the counters as they found them.**

For every tree, scope and machine whose counters are within their limits: evaluation comes to what
the evaluator gives, and to nothing else. Wherever the run comes to on its way, the counters tell
how many calls and nodes are active, and there is room for one more node or it is refused. When the
run ends, with a value, with a fault or at a node that has no meaning, the counters are the same
again. -/
theorem evaluate_restores {maxDepth : Nat} (node : Node) (scope : ScopeId) {m : Machine}
    (hdepth : m.depth ≤ maxDepth) (hnesting : m.nesting ≤ nestingLimit maxDepth) :
    (∀ r, Halts maxDepth node scope m r ↔ r = evaluate maxDepth node scope m) ∧
    (∀ calls nodes n i m', Active maxDepth node scope m calls nodes n i m' →
      m'.depth = m.depth + calls ∧ m.depth + calls ≤ maxDepth ∧ m'.nesting = m.nesting + nodes ∧
        (m.nesting + nodes + 1 ≤ nestingLimit maxDepth ∨ m.nesting + nodes = nestingLimit maxDepth ∧
          evaluate maxDepth n i m' = (.ok (.fault (.tooManyNodes (nestingLimit maxDepth))), m'))) ∧
    (evaluate maxDepth node scope m).2.depth = m.depth ∧
    (evaluate maxDepth node scope m).2.nesting = m.nesting := by
  refine ⟨fun r => ⟨Halts.eq_evaluate, ?_⟩, ?_, Restoring.depth m, Restoring.nesting m⟩
  · rintro rfl
    exact halts_evaluate maxDepth node scope m
  · intro calls nodes n i m' hactive
    obtain ⟨hcalls, hnodes, hle, hle'⟩ := hactive.counters hdepth hnesting
    refine ⟨hcalls, hcalls ▸ hle, hnodes, ?_⟩
    rcases Nat.lt_or_ge m'.nesting (nestingLimit maxDepth) with hroom | hfull
    · exact .inl (hnodes ▸ hroom)
    · refine .inr ⟨by omega, ?_⟩
      rw [evaluate_run, if_pos hfull]

/-- A call of a function that comes to a node without a meaning. -/
def meaninglessCall : Node :=
  .call .start (.function .start [] (.block .start [.bare .start])) []

/-- One call and two nodes are active where the run cannot go on, and none of them afterwards. -/
theorem evaluate_meaninglessCall :
    let m : Machine := ⟨Heap.empty.addOutermost, [], 1, 3⟩
    m.depth ≤ 2 ∧ m.nesting ≤ nestingLimit 2 ∧
      (evaluate 2 meaninglessCall 0 m).1 = .error ⟨"node", .start⟩ ∧
      (∃ m', Active 2 meaninglessCall 0 m 1 2 (.bare .start) 1 m' ∧
        m'.depth = 2 ∧ m'.nesting = 5) ∧
      (evaluate 2 meaninglessCall 0 m).2.depth = 1 ∧
      (evaluate 2 meaninglessCall 0 m).2.nesting = 3 := by
  intro m
  have hdepth : m.depth ≤ 2 := by decide
  have hnesting : m.nesting ≤ nestingLimit 2 := by decide
  obtain ⟨-, hactive, hafter⟩ := evaluate_restores meaninglessCall 0 hdepth hnesting
  have henters : Enters 2 (evaluate 2) meaninglessCall 0 m.within (.block .start [.bare .start])
      m.within.heap.nextId (m.within.entered 0 [] []) :=
    .body rfl rfl rfl (Nat.lt_succ_self 1)
  have hbody : Active 2 meaninglessCall 0 m 1 1 (.block .start [.bare .start]) 1
      (m.within.entered 0 [] []) := .call .start (by decide) henters
  have hbare : Active 2 meaninglessCall 0 m 1 2 (.bare .start) 1
      (m.within.entered 0 [] []).within := by
    refine .node hbody (by decide) (.block .here) ?_
    rintro ⟨⟩
  obtain ⟨hcalls, -, hnodes, -⟩ := hactive _ _ _ _ _ hbare
  exact ⟨hdepth, hnesting, rfl, ⟨_, hbare, hcalls, hnodes⟩, hafter⟩

end Scriptlet.Eval
