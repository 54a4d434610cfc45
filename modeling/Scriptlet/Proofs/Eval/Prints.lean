import Scriptlet.Proofs.Eval.Visits

/-!
# What a run prints

Only calls of `puts` print, and each of them prints its arguments behind all that was printed
before.

* `putsCalls`: the arguments of the calls of `puts` that a run makes, in their order.
* `printed_evaluate`: what a run prints is the arguments of these calls, one line for each.
-/

namespace Scriptlet.Eval

open Syntax (Node)

/-! ## The calls of a run -/

section

variable {α : Type}

/-- What follows a computation, if there is anything that follows it. -/
def following (act : Eval α) (m : Machine) (next : α → Machine → List (List Value)) :
    List (List Value) :=
  match act m with
  | (.ok a, m₁) => next a m₁
  | (.error _, _) => []

end

section

variable (eval : Node → Eval Value) (calls : Node → Machine → List (List Value))

/-- The calls that statements make until one stops. -/
def statementCalls : List Node → Machine → List (List Value)
  | [], _ => []
  | s :: ss, m => calls s m ++ following (eval s) m fun v m₁ =>
      if v.stops then [] else statementCalls ss m₁

/-- The calls that arguments make from left to right, up to the first fault. -/
def argumentCalls : List Node → Machine → List (List Value)
  | [], _ => []
  | e :: es, m => calls e m ++ following (eval e) m fun v m₁ =>
      if v.isFault then [] else argumentCalls es m₁

end

section

variable (maxDepth : Nat) (eval : Node → ScopeId → Eval Value)
  (calls : Node → ScopeId → Machine → List (List Value))

/-- The calls that a call makes: itself if it is one of `puts`, and those of the body of a function
that is entered. -/
def applicationCalls (f : Value) (args : List Value) (m : Machine) : List (List Value) :=
  match f with
  | .builtin .puts => [args]
  | .function params body scope =>
    if args.length = params.length ∧ m.depth < maxDepth then
      calls body m.heap.nextId (m.entered scope params args)
    else []
  | _ => []

/-- The calls that a tree makes, given those of the trees under it. -/
def callsWith (node : Node) (i : ScopeId) (m : Machine) : List (List Value) :=
  match node with
  | .program _ ss | .block _ ss => statementCalls (eval · i) (calls · i) ss m
  | .statement _ e | .binding _ _ e | .returning _ e | .unary _ _ e => calls e i m
  | .binary _ l _ r => calls l i m ++ following (eval l i) m fun v m₁ =>
      if v.isFault then [] else calls r i m₁
  | .conditional _ c t e => calls c i m ++ following (eval c i) m fun v m₁ =>
      if v.isFault then [] else if v.truthy then calls t i m₁ else
        match e with
        | some e => calls e i m₁
        | none => []
  | .call _ f args => calls f i m ++ following (eval f i) m fun v m₁ =>
      if v.isFault then [] else argumentCalls (eval · i) (calls · i) args m₁ ++
        following (evalArguments (eval · i) args) m₁ fun result m₂ =>
          match result with
          | .error _ => []
          | .ok vs => applicationCalls maxDepth calls v vs m₂
  | .integer .. | .boolean .. | .string .. | .function .. | .identifier .. | .bare .. => []

end

/-- The calls that a tree makes, with room for `budget` active nodes. -/
def callsNode (maxDepth : Nat) : (budget : Nat) → Node → ScopeId → Machine → List (List Value)
  | 0, _, _, _ => []
  | budget + 1, node, i, m =>
    callsWith maxDepth (evalNode maxDepth budget) (callsNode maxDepth budget) node i
      { m with nesting := m.nesting + 1 }

/-- The arguments of the calls of `puts` that a run makes, in the order of the calls. -/
def putsCalls (maxDepth : Nat) (node : Node) (i : ScopeId) (m : Machine) : List (List Value) :=
  callsNode maxDepth (nestingLimit maxDepth - m.nesting) node i m

/-! ## Computations that print -/

/-- With the machine `m`, the computation prints the arguments of the calls, one line for each,
behind what was printed before. -/
def Prints {α : Type} (act : Eval α) (m : Machine) (calls : List (List Value)) : Prop :=
  (act m).2.printed.reverse = m.printed.reverse ++ calls.flatMap (·.map Value.line)

section

variable {α β : Type} {act : Eval α} {k : α → Eval β} {m : Machine} {calls : List (List Value)}

theorem prints_nothing (h : (act m).2.printed = m.printed) : Prints act m [] := by
  rw [Prints, h, List.flatMap_nil, List.append_nil]

theorem Prints.bind {next : α → Machine → List (List Value)} (h : Prints act m calls)
    (hnext : ∀ a m₁, act m = (.ok a, m₁) → Prints (k a) m₁ (next a m₁)) :
    Prints (act >>= k) m (calls ++ following act m next) := by
  unfold Prints following at *
  rw [bind_run]
  rcases hrun : act m with ⟨err | a, m₁⟩
  · rw [hrun] at h
    simpa using h
  · rw [hrun] at h
    rw [hnext a m₁ hrun, h, List.flatMap_append, List.append_assoc]

/-- What comes after the computation prints nothing. -/
theorem Prints.bind_silent (h : Prints act m calls) (hnext : ∀ a m₁, Prints (k a) m₁ []) :
    Prints (act >>= k) m calls := by
  have hbind : Prints (act >>= k) m (calls ++ following act m fun _ _ => []) :=
    h.bind fun a m₁ _ => hnext a m₁
  have hnone : following act m (fun _ _ => []) = [] := by
    unfold following
    split <;> rfl
  rwa [hnone, List.append_nil] at hbind

/-- A fault is passed on and prints nothing. -/
theorem Prints.checked {act : Eval Value} {k : Value → Eval Value}
    {next : Value → Machine → List (List Value)} (h : Prints act m calls)
    (hnext : ∀ v m₁, act m = (.ok v, m₁) → Prints (k v) m₁ (next v m₁)) :
    Prints (act >>= fun v => if v.isFault then pure v else k v) m
      (calls ++ following act m fun v m₁ => if v.isFault then [] else next v m₁) := by
  refine h.bind fun v m₁ hrun => ?_
  by_cases hfault : v.isFault = true
  · simp only [if_pos hfault]
    exact prints_nothing rfl
  · simp only [if_neg hfault]
    exact hnext v m₁ hrun

theorem Prints.checked_silent {act : Eval Value} {k : Value → Eval Value} (h : Prints act m calls)
    (hnext : ∀ v m₁, Prints (k v) m₁ []) :
    Prints (act >>= fun v => if v.isFault then pure v else k v) m calls := by
  refine h.bind_silent fun v m₁ => ?_
  split
  · exact prints_nothing rfl
  · exact hnext v m₁

end

/-! ## The parts of the evaluator -/

section

variable {eval : Node → Eval Value} {calls : Node → Machine → List (List Value)}
  (h : ∀ n m, Prints (eval n) m (calls n m))

include h

theorem prints_runStatements (last : Value) (ss : List Node) (m : Machine) :
    Prints (runStatements eval last ss) m (statementCalls eval calls ss m) := by
  induction ss generalizing last m with
  | nil => exact prints_nothing rfl
  | cons s ss ih =>
    refine (h s m).bind fun v m₁ _ => ?_
    by_cases hstops : v.stops = true
    · simp only [if_pos hstops]
      exact prints_nothing rfl
    · simp only [if_neg hstops]
      exact ih v m₁

theorem prints_evalArguments (es : List Node) (m : Machine) :
    Prints (evalArguments eval es) m (argumentCalls eval calls es m) := by
  induction es generalizing m with
  | nil => exact prints_nothing rfl
  | cons e es ih =>
    refine (h e m).bind fun v m₁ _ => ?_
    cases v with
    | fault f => exact prints_nothing rfl
    | _ =>
      refine (ih m₁).bind_silent fun result m₂ => ?_
      cases result <;> exact prints_nothing rfl

end

/-- Of the builtin functions, only `puts` prints. -/
theorem lines_apply (b : Builtin) (args : List Value) :
    (b.apply args).2 = if b = .puts then args.map Value.line else [] := by
  cases b with
  | puts => rfl
  | len =>
    unfold Builtin.apply
    split <;> first | rfl | contradiction
  | type =>
    unfold Builtin.apply
    split <;> first | rfl | contradiction

theorem prints_evalName (i : ScopeId) (name : String) (m : Machine) :
    Prints (evalName i name) m [] := by
  refine prints_nothing ?_
  unfold evalName
  rw [get_bind_run]
  cases m.heap.find? i name with
  | some v => rfl
  | none => cases Builtin.ofName? name <;> rfl

theorem prints_bindName (i : ScopeId) (name : Node) (v : Value) (m : Machine) :
    Prints (bindName i name v) m [] := by
  refine prints_nothing ?_
  unfold bindName
  cases name.boundName? <;> rfl

section

variable {maxDepth : Nat} {eval : Node → ScopeId → Eval Value}
  {calls : Node → ScopeId → Machine → List (List Value)}
  (h : ∀ n i m, Prints (eval n i) m (calls n i m))

include h

theorem prints_applyWith (f : Value) (args : List Value) (m : Machine) :
    Prints (applyWith maxDepth eval f args) m (applicationCalls maxDepth calls f args m) := by
  cases f with
  | builtin b =>
    have hrun : (applyWith maxDepth eval (.builtin b) args m).2.printed =
        (b.apply args).2.reverse ++ m.printed := rfl
    rw [Prints, hrun, List.reverse_append, List.reverse_reverse, lines_apply]
    cases b <;> simp [applicationCalls]
  | function params body scope =>
    unfold applyWith applicationCalls
    by_cases harity : args.length = params.length
    · by_cases hdepth : m.depth < maxDepth
      · simp only [if_neg (not_not_intro harity), get_bind_run, if_neg (Nat.not_le.2 hdepth),
          if_pos (And.intro harity hdepth), Prints]
        have hbody : Prints (called (eval body m.heap.nextId))
            { m with heap := (m.heap.addInside scope).bindAll m.heap.nextId (bindings params args) }
            (calls body m.heap.nextId (m.entered scope params args)) :=
          h body m.heap.nextId (m.entered scope params args)
        exact hbody.bind_silent (k := fun v => pure v.arrived) fun _ _ => prints_nothing rfl
      · have hnone : ¬ (args.length = params.length ∧ m.depth < maxDepth) := by omega
        simp only [if_neg hnone]
        refine prints_nothing ?_
        simp only [if_neg (not_not_intro harity), get_bind_run, if_pos (Nat.not_lt.1 hdepth)]
        rfl
    · simp only [if_pos harity, harity, false_and]
      exact prints_nothing rfl
  | _ => exact prints_nothing rfl

/-- **What one tree prints.** -/
theorem prints_evalWith (node : Node) (i : ScopeId) (m : Machine) :
    Prints (evalWith maxDepth eval node i) m (callsWith maxDepth eval calls node i m) := by
  cases node with
  | program _ ss =>
    refine (prints_runStatements (fun n m => h n i m) .null ss m).bind_silent fun _ _ => ?_
    exact prints_nothing rfl
  | block _ ss => exact prints_runStatements (fun n m => h n i m) .null ss m
  | statement _ e => exact h e i m
  | binding _ name e =>
    refine (h e i m).checked_silent fun v m₁ => ?_
    exact (prints_bindName i name v m₁).bind_silent fun _ _ => prints_nothing rfl
  | returning _ e => exact (h e i m).checked_silent fun _ _ => prints_nothing rfl
  | integer | boolean | string | function | bare => exact prints_nothing rfl
  | identifier _ name => exact prints_evalName i name m
  | unary _ op e => exact (h e i m).checked_silent fun _ _ => prints_nothing rfl
  | binary _ l op r =>
    refine (h l i m).checked fun v m₁ _ => ?_
    exact (h r i m₁).checked_silent fun _ _ => prints_nothing rfl
  | conditional _ c t e =>
    refine (h c i m).checked fun v m₁ _ => ?_
    by_cases htruthy : v.truthy = true
    · simp only [if_pos htruthy]
      exact h t i m₁
    · simp only [if_neg htruthy]
      cases e with
      | some e => exact h e i m₁
      | none => exact prints_nothing rfl
  | call _ f args =>
    refine (h f i m).checked fun v m₁ _ => ?_
    refine (prints_evalArguments (fun n m => h n i m) args m₁).bind fun result m₂ _ => ?_
    cases result with
    | error _ => exact prints_nothing rfl
    | ok vs => exact prints_applyWith h v vs m₂

end

/-! ## Whole runs -/

theorem prints_evalNode (maxDepth budget : Nat) (node : Node) (i : ScopeId) (m : Machine) :
    Prints (evalNode maxDepth budget node i) m (callsNode maxDepth budget node i m) := by
  induction budget generalizing node i m with
  | zero => exact prints_nothing rfl
  | succ budget ih => exact prints_evalWith ih node i { m with nesting := m.nesting + 1 }

/-- **A run prints what its calls of `puts` are given, in their order.** -/
theorem printed_evaluate (maxDepth : Nat) (node : Node) (i : ScopeId) (m : Machine) :
    (evaluate maxDepth node i m).2.printed.reverse = m.printed.reverse ++
      (putsCalls maxDepth node i m).flatMap (·.map Value.line) :=
  prints_evalNode maxDepth (nestingLimit maxDepth - m.nesting) node i m

end Scriptlet.Eval
