import Scriptlet.Eval.Node
import Scriptlet.Proofs.Eval.Heap
import Scriptlet.Proofs.Run

/-!
# Evaluation writes to one scope

A tree is evaluated in one scope, and of the scopes that exist only that one can change: by
binding names of the bindings in the tree, those inside functions apart. A call runs in a scope
that is new, so that it changes none.

* `Scope.Rebound`: what a scope can become when only some names are bound in it.
* `Heap.Frame`: what the heap can become when only one scope is written to.
* `frames_evalNode`: evaluation stays in the frame of its scope.
* `evaluate_writes_own_scope`: the main statement, with the same for calls.
-/

namespace Scriptlet

open Syntax (Node)

namespace Syntax.Node

mutual

/-- The names of the bindings in a tree that are not inside a function. -/
def letNames : Node → List String
  | program _ ss | block _ ss => letNamesOf ss
  | binding _ name value => name.boundName?.toList ++ letNames value
  | returning _ e | statement _ e | unary _ _ e => letNames e
  | binary _ l _ r => letNames l ++ letNames r
  | conditional _ c t e => letNames c ++ letNames t ++ letNamesIn e
  | call _ f args => letNames f ++ letNamesOf args
  | function .. | identifier .. | integer .. | boolean .. | string .. | bare .. => []

/-- The names of the bindings in the trees of a list. -/
def letNamesOf : List Node → List String
  | [] => []
  | e :: es => letNames e ++ letNamesOf es

/-- The names of the bindings in a tree that may be absent. -/
def letNamesIn : Option Node → List String
  | none => []
  | some e => letNames e

end

theorem letNames_subset_letNamesOf {e : Node} {es : List Node} (he : e ∈ es) :
    e.letNames ⊆ letNamesOf es := by
  induction es with
  | nil => cases he
  | cons e' es ih =>
    rcases List.mem_cons.1 he with rfl | hrest
    · exact List.subset_append_left _ _
    · exact List.Subset.trans (ih hrest) (List.subset_append_right _ _)

end Syntax.Node

/-! ## What one scope can become -/

/-- What a scope can become by binding names of a list in it, any number of times. -/
inductive Scope.Rebound (names : List String) (s : Scope) : Scope → Prop
  | refl : Rebound names s s
  | bind {s' : Scope} {name : String} (hname : name ∈ names) (v : Value) :
      Rebound names s s' → Rebound names s (s'.bind name v)

namespace Scope.Rebound

variable {names names' : List String} {s s₁ s' : Scope}

theorem trans (h : Rebound names s s₁) (h' : Rebound names s₁ s') : Rebound names s s' := by
  induction h' with
  | refl => exact h
  | bind hname v _ ih => exact ih.bind hname v

theorem mono (hsub : names ⊆ names') (h : Rebound names s s') : Rebound names' s s' := by
  induction h with
  | refl => exact .refl
  | bind hname v _ ih => exact ih.bind (hsub hname) v

theorem around (h : Rebound names s s') : s'.around = s.around := by
  induction h with
  | refl => rfl
  | bind _ _ _ ih => exact ih

/-- No name is lost. -/
theorem isSome_find? (h : Rebound names s s') {name : String} (hs : (s.find? name).isSome) :
    (s'.find? name).isSome := by
  induction h with
  | refl => exact hs
  | @bind s' bound _ v _ ih =>
    by_cases hname : name = bound
    · subst hname
      rw [find?_bind_self]
      rfl
    · rwa [find?_bind_of_ne _ v hname]

/-- A name that is not on the list is bound to what it was. -/
theorem find?_eq (h : Rebound names s s') {name : String} (hout : name ∉ names) :
    s'.find? name = s.find? name := by
  induction h with
  | refl => rfl
  | @bind s' bound hbound v _ ih =>
    have hne : name ≠ bound := by
      intro heq
      subst heq
      exact hout hbound
    rw [find?_bind_of_ne _ v hne, ih]

end Scope.Rebound

/-! ## What the heap can become -/

/-- Scopes may have been added, and no scope that was there has changed. -/
structure Heap.Extends (h h' : Heap) : Prop where
  grows : h.nextId ≤ h'.nextId
  same : ∀ i < h.nextId, h'.scope i = h.scope i

/-- Scopes may have been added and names bound in the scope `e`; no other scope that was there
has changed. -/
structure Heap.Frame (e : ScopeId) (names : List String) (h h' : Heap) : Prop where
  grows : h.nextId ≤ h'.nextId
  others : ∀ i < h.nextId, i ≠ e → h'.scope i = h.scope i
  own : Scope.Rebound names (h.scope e) (h'.scope e)

namespace Heap

variable {e : ScopeId} {names names' : List String} {h h₁ h' : Heap}

theorem Extends.refl (h : Heap) : Extends h h := ⟨Nat.le_refl _, fun _ _ => rfl⟩

theorem Extends.frame (hext : Extends h h') (he : e < h.nextId) : Frame e names h h' := by
  refine ⟨hext.grows, fun i hi _ => hext.same i hi, ?_⟩
  rw [hext.same e he]
  exact .refl

theorem Frame.refl (e : ScopeId) (names : List String) (h : Heap) : Frame e names h h :=
  ⟨Nat.le_refl _, fun _ _ _ => rfl, .refl⟩

theorem Frame.trans (hf : Frame e names h h₁) (hf' : Frame e names h₁ h') :
    Frame e names h h' := by
  refine ⟨Nat.le_trans hf.grows hf'.grows, ?_, hf.own.trans hf'.own⟩
  intro i hi hne
  have hi' : i < h₁.nextId := Nat.lt_of_lt_of_le hi hf.grows
  rw [hf'.others i hi' hne, hf.others i hi hne]

theorem Frame.mono (hsub : names ⊆ names') (hf : Frame e names h h') : Frame e names' h h' :=
  ⟨hf.grows, hf.others, hf.own.mono hsub⟩

theorem Frame.bind (he : e < h.nextId) {name : String} (hname : name ∈ names) (v : Value) :
    Frame e names h (h.bind e name v) := by
  refine ⟨by simp, fun i _ hne => scope_bind_of_ne h hne name v, ?_⟩
  rw [scope_bind_self h he]
  exact Scope.Rebound.refl.bind hname v

/-- A scope that was added, and what was written to it since, are out of sight of those that were
there before. -/
theorem Extends.of_enclose (scope : ScopeId) (bs : List (String × Value))
    (hf : Frame h.nextId names ((h.addInside scope).bindAll h.nextId bs) h') : Extends h h' := by
  have hsize : ((h.addInside scope).bindAll h.nextId bs).nextId = h.nextId + 1 := by simp
  have hgrows : h.nextId + 1 ≤ h'.nextId := hsize ▸ hf.grows
  refine ⟨Nat.le_of_succ_le hgrows, ?_⟩
  intro i hi
  have hne : i ≠ h.nextId := Nat.ne_of_lt hi
  have hi' : i < ((h.addInside scope).bindAll h.nextId bs).nextId := by
    rw [hsize]
    exact Nat.lt_succ_of_lt hi
  rw [hf.others i hi' hne, scope_bindAll_of_ne _ hne, scope_addInside_of_ne h hne]

end Heap

/-! ## Computations that write to one scope -/

namespace Eval

open Syntax.Node

/-- Where the scope `e` exists, `act` stays in its frame, whether it gives a result or cannot go
on. -/
def Frames {α : Type} (e : ScopeId) (names : List String) (act : Eval α) : Prop :=
  ∀ m : Machine, e < m.heap.nextId → Heap.Frame e names m.heap (act m).2.heap

variable {α β : Type} {e : ScopeId} {names names' : List String}

theorem frames_pure (a : α) : Frames e names (pure a) := fun _ _ => .refl ..

theorem frames_throw (err : Meaningless) : Frames e names (throw err : Eval α) :=
  fun _ _ => .refl ..

theorem Frames.bind {act : Eval α} {k : α → Eval β} (h : Frames e names act)
    (hnext : ∀ a, Frames e names (k a)) : Frames e names (act >>= k) := by
  intro m he
  have hfirst := h m he
  rw [bind_run]
  generalize act m = r at hfirst
  obtain ⟨err | a, m₁⟩ := r
  · exact hfirst
  · -- the scope is still there for what comes next
    have he' : e < m₁.heap.nextId := Nat.lt_of_lt_of_le he hfirst.grows
    exact hfirst.trans (hnext a m₁ he')

/-- The check for a fault that stands after a subtree. -/
theorem Frames.checked {act : Eval Value} {k : Value → Eval Value} (h : Frames e names act)
    (hnext : ∀ v, Frames e names (k v)) :
    Frames e names (act >>= fun v => if v.isFault then pure v else k v) := by
  refine h.bind fun v => ?_
  by_cases hfault : v.isFault = true
  · simp only [if_pos hfault]
    exact frames_pure v
  · simp only [if_neg hfault]
    exact hnext v

theorem Frames.mono {act : Eval α} (hsub : names ⊆ names') (h : Frames e names act) :
    Frames e names' act :=
  fun m he => (h m he).mono hsub

theorem Frames.nested {act : Eval α} (h : Frames e names act) : Frames e names (nested act) :=
  fun m he => h { m with nesting := m.nesting + 1 } he

theorem Frames.called {act : Eval α} (h : Frames e names act) : Frames e names (called act) :=
  fun m he => h { m with depth := m.depth + 1 } he

/-! ## The parts of the evaluator -/

theorem frames_evalName (scope : ScopeId) (text : String) :
    Frames e names (evalName scope text) := by
  intro m _
  have hrun : (evalName scope text m).2 = m := by
    simp only [evalName, get_bind_run]
    cases m.heap.find? scope text with
    | some v => rfl
    | none => cases Builtin.ofName? text <;> rfl
  rw [hrun]
  exact .refl ..

theorem frames_bindName {name : Node} (hname : name.boundName?.toList ⊆ names) (v : Value) :
    Frames e names (bindName e name v) := by
  unfold bindName
  cases htext : name.boundName? with
  | none => exact frames_pure ()
  | some text =>
    have hmem : text ∈ names := hname (by simp [htext])
    exact fun m he => Heap.Frame.bind he hmem v

theorem frames_runStatements {eval : Node → Eval Value} {ss : List Node}
    (h : ∀ s ∈ ss, Frames e names (eval s)) (last : Value) :
    Frames e names (runStatements eval last ss) := by
  induction ss generalizing last with
  | nil => exact frames_pure last
  | cons s ss ih =>
    refine (h s (by simp)).bind fun v => ?_
    by_cases hstops : v.stops = true
    · simp only [if_pos hstops]
      exact frames_pure v
    · simp only [if_neg hstops]
      exact ih (fun s' hs' => h s' (by simp [hs'])) v

theorem frames_evalArguments {eval : Node → Eval Value} {es : List Node}
    (h : ∀ a ∈ es, Frames e names (eval a)) : Frames e names (evalArguments eval es) := by
  induction es with
  | nil => exact frames_pure _
  | cons a es ih =>
    have hrest := ih fun a' ha' => h a' (by simp [ha'])
    refine (h a (by simp)).bind fun v => ?_
    cases v with
    | fault f => exact frames_pure _
    | _ =>
      refine hrest.bind ?_
      rintro (f | vs)
      · exact frames_pure _
      · exact frames_pure _

/-- **A call changes no scope that was there.** -/
theorem extends_applyWith {maxDepth : Nat} {eval : Node → ScopeId → Eval Value}
    (h : ∀ node scope, Frames scope node.letNames (eval node scope)) (f : Value)
    (args : List Value) (m : Machine) :
    m.heap.Extends (applyWith maxDepth eval f args m).2.heap := by
  cases f with
  | function params body scope =>
    unfold applyWith
    by_cases harity : args.length ≠ params.length
    · simp only [if_pos harity]
      exact .refl _
    · simp only [if_neg harity, get_bind_run]
      by_cases hdepth : maxDepth ≤ m.depth
      · simp only [if_pos hdepth]
        exact .refl _
      · simp only [if_neg hdepth]
        -- the body writes to the scope that was made for it, which has the next number
        have hbody : Frames m.heap.nextId body.letNames
            (called (eval body m.heap.nextId) >>= fun v => pure v.arrived) :=
          (h body m.heap.nextId).called.bind fun v => frames_pure v.arrived
        have hframe := hbody
          { m with heap := (m.heap.addInside scope).bindAll m.heap.nextId (bindings params args) }
          (by simp)
        exact Heap.Extends.of_enclose scope (bindings params args) hframe
  | _ => exact .refl _

/-- One node: one case for each kind, and in each the subtrees stay in the frame. -/
theorem frames_evalWith {maxDepth : Nat} {eval : Node → ScopeId → Eval Value}
    (h : ∀ node scope, Frames scope node.letNames (eval node scope)) (node : Node)
    (scope : ScopeId) : Frames scope node.letNames (evalWith maxDepth eval node scope) := by
  have hsub : ∀ e : Node, e.letNames ⊆ node.letNames →
      Frames scope node.letNames (eval e scope) := fun e he => (h e scope).mono he
  cases node with
  | program _ ss =>
    have hss := frames_runStatements (fun s hs => hsub s (letNames_subset_letNamesOf hs)) .null
    exact hss.bind fun v => frames_pure v.arrived
  | block _ ss =>
    exact frames_runStatements (fun s hs => hsub s (letNames_subset_letNamesOf hs)) .null
  | statement _ e => exact hsub e (List.Subset.refl _)
  | binding _ name e =>
    refine (hsub e (List.subset_append_right _ _)).checked fun v => ?_
    exact (frames_bindName (List.subset_append_left _ _) v).bind fun _ => frames_pure v
  | returning _ e =>
    exact (hsub e (List.Subset.refl _)).checked fun v => frames_pure _
  | integer | boolean | string | function => exact frames_pure _
  | identifier _ text => exact frames_evalName scope text
  | unary _ op e =>
    exact (hsub e (List.Subset.refl _)).checked fun v => frames_pure _
  | binary _ l op r =>
    refine (hsub l (List.subset_append_left _ _)).checked fun lv => ?_
    exact (hsub r (List.subset_append_right _ _)).checked fun rv => frames_pure _
  | conditional _ c t e =>
    have hc := hsub c (by simp [letNames])
    have ht := hsub t (by simp [letNames])
    refine hc.checked fun v => ?_
    by_cases htruthy : v.truthy = true
    · simp only [if_pos htruthy]
      exact ht
    · simp only [if_neg htruthy]
      cases e with
      | some e => exact hsub e (by simp [letNames, letNamesIn])
      | none => exact frames_pure _
  | call _ f args =>
    refine (hsub f (List.subset_append_left _ _)).checked fun fv => ?_
    have hargs := frames_evalArguments fun a ha =>
      hsub a (List.Subset.trans (letNames_subset_letNamesOf ha) (List.subset_append_right _ _))
    refine hargs.bind ?_
    rintro (fault | vs)
    · exact frames_pure _
    · exact fun m he => (extends_applyWith h fv vs m).frame he
  | bare pos => exact frames_throw _

/-- **Evaluation stays in the frame of its scope**, by induction on the room for active nodes. -/
theorem frames_evalNode (maxDepth budget : Nat) :
    ∀ node scope, Frames scope node.letNames (evalNode maxDepth budget node scope) := by
  induction budget with
  | zero => exact fun _ _ => frames_pure _
  | succ budget ih => exact fun node scope => (frames_evalWith ih node scope).nested

/-- **Evaluation writes only to its own scope.** Of the scopes that are there, evaluation in the
scope `e` changes at most `e`; that keeps the scopes around it and all its names, and the names
with another value than before are names of bindings in the tree, outside its functions. A call
changes no scope that is there. -/
theorem evaluate_writes_own_scope (maxDepth : Nat) (node : Node) (m : Machine) {e : ScopeId}
    (he : e < m.heap.nextId) :
    let after := (evaluate maxDepth node e m).2.heap
    (∀ i < m.heap.nextId, i < after.nextId ∧ (i ≠ e → after.scope i = m.heap.scope i)) ∧
      (after.scope e).around = (m.heap.scope e).around ∧
      (∀ name, ((m.heap.scope e).find? name).isSome → ((after.scope e).find? name).isSome) ∧
      (∀ name, (after.scope e).find? name ≠ (m.heap.scope e).find? name →
        name ∈ node.letNames) ∧
      ∀ f args, ∀ i < m.heap.nextId,
        (apply maxDepth f args m).2.heap.scope i = m.heap.scope i := by
  have hframe : Heap.Frame e node.letNames m.heap (evaluate maxDepth node e m).2.heap :=
    frames_evalNode maxDepth (nestingLimit maxDepth - m.nesting) node e m he
  refine ⟨?_, hframe.own.around, fun name => hframe.own.isSome_find?, ?_, ?_⟩
  · intro i hi
    exact ⟨Nat.lt_of_lt_of_le hi hframe.grows, hframe.others i hi⟩
  · intro name hchanged
    exact Decidable.byContradiction fun hout => hchanged (hframe.own.find?_eq hout)
  · intro f args
    exact (extends_applyWith
      (frames_evalNode maxDepth (nestingLimit maxDepth - m.nesting)) f args m).same

/-- Binds a name outside and inside of a function, and calls the function. -/
def shadowing : Node :=
  let x := identifier .start "x"
  let y := identifier .start "y"
  let f := identifier .start "f"
  program .start [
    binding .start y (integer .start 1),
    binding .start f (function .start [x]
      (block .start [binding .start y x, statement .start y])),
    statement .start (call .start f [integer .start 2])]

/-- Binds what the function gives. -/
def bindsCall : Node :=
  binding .start (identifier .start "z")
    (call .start (identifier .start "f") [integer .start 4])

/-- The scope of the first call is there for a second run, which binds one name in it. -/
theorem evaluate_bindsCall :
    let m := (evaluate 1 shadowing 0 .initial).2
    let after := (evaluate 1 bindsCall 1 m).2.heap
    1 < m.heap.nextId ∧ after.scope 0 = m.heap.scope 0 ∧
      (∀ name, (after.scope 1).find? name ≠ (m.heap.scope 1).find? name → name ∈ ["z"]) ∧
      (after.scope 1).bindings.map (·.1) = ["z", "y", "x"] := by
  have hscope : 1 < (evaluate 1 shadowing 0 .initial).2.heap.nextId := by decide +kernel
  have hwrites := evaluate_writes_own_scope 1 bindsCall _ hscope
  have hglobal : 0 < (evaluate 1 shadowing 0 .initial).2.heap.nextId := Nat.lt_of_succ_lt hscope
  exact ⟨hscope, (hwrites.1 0 hglobal).2 (by decide), hwrites.2.2.2.1, by decide +kernel⟩

end Eval

end Scriptlet
