import Scriptlet.Proofs.Eval.Abort
import Scriptlet.Proofs.Eval.Discipline
import Scriptlet.Proofs.Syntax.Places

/-!
# Runs that look alike

Neither the places of trees nor the numbers of scopes bear on a run. If the scopes of one world are
those of another under different numbers, with the places in their functions taken away, then a tree
gives in the one what the tree without its places gives in the other, and prints the same.

* `Value.view`, `Scope.view`: a value and a scope under other numbers and without places.
* `Value.Alike`: two values that look the same.
* `Walk.Image`: one world under other numbers and without places.
* `Walk.Carried`: a walk does in the image what another does in the world itself.
* `Walk.carried_node`: that holds of the walk over every tree.
* `evalNode_unplaced`: a tree does the same without places.
-/

namespace Scriptlet

open Syntax (Node)
open Syntax.Node (unplaced unplacedAll_eq_map unplacedIn_eq_map)

variable {ρ : ScopeId → ScopeId}

/-! ## Values -/

namespace Value

/-- A value with its places taken away, where `ρ` gives the numbers of scopes. -/
def view (ρ : ScopeId → ScopeId) : Value → Value
  | returning v => returning (v.view ρ)
  | function params body scope => function (params.map unplaced) body.unplaced (ρ scope)
  | v => v

@[simp] theorem type_view (ρ : ScopeId → ScopeId) (v : Value) : (v.view ρ).type = v.type := by
  cases v <;> rfl

@[simp] theorem inspect_view (ρ : ScopeId → ScopeId) (v : Value) :
    (v.view ρ).inspect = v.inspect := by
  induction v with
  | returning v ih => exact ih
  | function params body scope =>
    simp only [view, inspect, ← unplacedAll_eq_map, Node.renderAll_unplaced, Node.render_unplaced]
  | _ => rfl

@[simp] theorem frames_view (ρ : ScopeId → ScopeId) (v : Value) : (v.view ρ).frames = v.frames := by
  induction v with
  | returning v ih => exact congrArg (1 + ·) ih
  | function params body scope =>
    simp only [view, frames, ← unplacedAll_eq_map, Node.framesAll_unplaced, Node.frames_unplaced]
  | _ => rfl

@[simp] theorem line_view (ρ : ScopeId → ScopeId) (v : Value) : (v.view ρ).line = v.line := by
  rw [line, line, inspect_view, frames_view]

/-- Two values that look the same: they are of one type, are shown as one text, and if one of them
is a fault the other is that fault. -/
structure Alike (v v' : Value) : Prop where
  type : v'.type = v.type
  inspect : v'.inspect = v.inspect
  fault : ∀ f, v = .fault f ↔ v' = .fault f

theorem view_eq_fault_iff {ρ : ScopeId → ScopeId} {v : Value} {f : Fault} :
    v.view ρ = .fault f ↔ v = .fault f := by
  cases v <;> simp [view]

theorem alike_of_view {ρ σ : ScopeId → ScopeId} {v v' : Value}
    (h : v'.view σ = v.view ρ) : v.Alike v' where
  type := by rw [← type_view σ, h, type_view]
  inspect := by rw [← inspect_view σ, h, inspect_view]
  fault f := by rw [← view_eq_fault_iff (ρ := ρ), ← h, view_eq_fault_iff]

theorem truthy_view (ρ : ScopeId → ScopeId) (v : Value) : (v.view ρ).truthy = v.truthy := by
  cases v <;> rfl

theorem arrived_view (ρ : ScopeId → ScopeId) (v : Value) :
    (v.view ρ).arrived = v.arrived.view ρ := by
  cases v <;> rfl

theorem faultless_view (ρ : ScopeId → ScopeId) (v : Value) :
    (v.view ρ).faultless = v.faultless := by
  induction v with
  | returning v ih => exact ih
  | _ => rfl

theorem view_of_isResult {v : Value} (hv : v.isResult) : v.view ρ = v := by
  cases v with
  | returning v => simp [isResult] at hv
  | function params body scope => simp [isResult] at hv
  | _ => rfl

theorem unary_view (ρ : ScopeId → ScopeId) (op : String) (v : Value) :
    (v.view ρ).unary op = v.unary op := by
  have hnot : (v.view ρ).not = v.not := by rw [not, not, truthy_view]
  have hnegative : (v.view ρ).negative = v.negative := by cases v <;> rfl
  unfold unary
  rw [hnot, hnegative, type_view]

theorem binary_view (ρ : ScopeId → ScopeId) (op : String) (l r : Value) :
    binary op (l.view ρ) (r.view ρ) = binary op l r := by
  have hsome : binary? op (l.view ρ) (r.view ρ) = binary? op l r := by
    cases l <;> cases r <;> rfl
  unfold binary
  rw [hsome, type_view, type_view]

end Value

theorem Builtin.apply_view (ρ : ScopeId → ScopeId) (b : Builtin) (args : List Value) :
    b.apply (args.map (Value.view ρ)) = b.apply args := by
  cases b with
  | puts =>
    show (Value.null, (args.map (Value.view ρ)).map Value.line) = _
    rw [List.map_map]
    simp [apply, Function.comp_def]
  | len | type =>
    match args with
    | [] => rfl
    | [v] => cases v <;> rfl
    | _ :: _ :: _ => simp [apply]

theorem Eval.bindings_view (ρ : ScopeId → ScopeId) (params : List Node) (args : List Value) :
    bindings (params.map unplaced) (args.map (Value.view ρ)) =
      (bindings params args).map fun b => (b.1, b.2.view ρ) := by
  unfold bindings
  rw [List.zip_map, List.filterMap_map, List.map_filterMap]
  congr 1
  funext b
  simp [Node.boundName?_unplaced, Function.comp_def]

/-! ## Scopes -/

namespace Scope

/-- A scope with its places taken away, where `ρ` gives the numbers of scopes. -/
def view (ρ : ScopeId → ScopeId) (s : Scope) : Scope where
  bindings := s.bindings.map fun b => (b.1, b.2.view ρ)
  around := s.around.map ρ

theorem find?_view (ρ : ScopeId → ScopeId) (s : Scope) (name : String) :
    (s.view ρ).find? name = (s.find? name).map (Value.view ρ) := by
  unfold find? view
  induction s.bindings with
  | nil => rfl
  | cons b bs ih =>
    obtain ⟨n, v⟩ := b
    simp only [List.map_cons, List.lookup_cons]
    by_cases hn : (name == n) = true
    · simp [hn]
    · simp only [hn]
      exact ih

theorem bind_view (ρ : ScopeId → ScopeId) (s : Scope) (name : String) (v : Value) :
    (s.bind name v).view ρ = (s.view ρ).bind name (v.view ρ) := by
  simp [bind, view, List.filter_map, Function.comp_def]

end Scope

/-! ## Worlds -/

namespace Walk

/-- The world `w'` has the scopes of `w` without their places and under the numbers that `ρ` gives
them, and what was printed in `w` was printed in `w'` after the lines `before`. -/
structure Image (ρ : ScopeId → ScopeId) (before : List Line) (w w' : World) : Prop where
  injective : ∀ i j, ρ i = ρ j → i = j
  next : ∀ k, ρ (w.heap.nextId + k) = w'.heap.nextId + k
  scope : ∀ i, w'.heap.scope (ρ i) = (w.heap.scope i).view ρ
  printed : w.printed = w'.printed ++ before

namespace Image

variable {before : List Line} {w w' : World}

theorem lt_iff (h : Image ρ before w w') (i : ScopeId) :
    ρ i < w'.heap.nextId ↔ i < w.heap.nextId := by
  constructor
  · intro hlt
    refine Nat.lt_of_not_le fun hge => ?_
    obtain ⟨k, rfl⟩ := Nat.exists_eq_add_of_le hge
    rw [h.next k] at hlt
    exact Nat.not_lt.2 (Nat.le_add_right _ k) hlt
  · intro hlt
    refine Nat.lt_of_not_le fun hge => ?_
    obtain ⟨k, hk⟩ := Nat.exists_eq_add_of_le hge
    rw [← h.next k] at hk
    rw [h.injective i _ hk] at hlt
    exact Nat.not_lt.2 (Nat.le_add_right _ k) hlt

theorem chain (h : Image ρ before w w') (i : ScopeId) :
    w'.heap.chain (ρ i) = (w.heap.chain i).map ρ := by
  unfold Heap.chain
  rw [h.scope i, List.map_cons]
  rfl

theorem find? (h : Image ρ before w w') (i : ScopeId) (name : String) :
    w'.heap.find? (ρ i) name = (w.heap.find? i name).map (Value.view ρ) := by
  unfold Heap.find?
  rw [h.chain i, List.findSome?_map, List.map_findSome?]
  congr 1
  funext j
  show (w'.heap.scope (ρ j)).find? name = ((w.heap.scope j).find? name).map (Value.view ρ)
  rw [h.scope j, Scope.find?_view]

theorem bind (h : Image ρ before w w') (i : ScopeId) (name : String) (v : Value) :
    Image ρ before { w with heap := w.heap.bind i name v }
      { w' with heap := w'.heap.bind (ρ i) name (v.view ρ) } := by
  refine ⟨h.injective, ?_, ?_, h.printed⟩
  · simpa using h.next
  · intro j
    show (w'.heap.bind (ρ i) name (v.view ρ)).scope (ρ j) =
      ((w.heap.bind i name v).scope j).view ρ
    by_cases hj : j = i
    · subst hj
      by_cases hlt : j < w.heap.nextId
      · rw [Heap.scope_bind_self _ hlt, Heap.scope_bind_self _ ((h.lt_iff j).2 hlt), h.scope j,
          Scope.bind_view]
      · have hge := Nat.not_lt.1 hlt
        have hge' := Nat.not_lt.1 fun hlt' => hlt ((h.lt_iff j).1 hlt')
        rw [Heap.scope_bind_of_nextId_le _ hge, Heap.scope_bind_of_nextId_le _ hge', h.scope j]
    · have hne : ρ j ≠ ρ i := fun heq => hj (h.injective j i heq)
      rw [Heap.scope_bind_of_ne _ hj, Heap.scope_bind_of_ne _ hne, h.scope j]

theorem bindAll (h : Image ρ before w w') (i : ScopeId) (bs : List (String × Value)) :
    Image ρ before { w with heap := w.heap.bindAll i bs }
      { w' with heap := w'.heap.bindAll (ρ i) (bs.map fun b => (b.1, b.2.view ρ)) } := by
  induction bs generalizing w w' with
  | nil => exact h
  | cons b bs ih => exact ih (h.bind i b.1 b.2)

/-- A new scope has the new number in both worlds. -/
theorem addInside (h : Image ρ before w w') (i : ScopeId) :
    Image ρ before { w with heap := w.heap.addInside i }
      { w' with heap := w'.heap.addInside (ρ i) } := by
  have hnew : ρ w.heap.nextId = w'.heap.nextId := h.next 0
  refine ⟨h.injective, fun k => ?_, fun j => ?_, h.printed⟩
  · show ρ ((w.heap.addInside i).nextId + k) = (w'.heap.addInside (ρ i)).nextId + k
    rw [Heap.nextId_addInside, Heap.nextId_addInside, Nat.add_assoc, h.next (1 + k),
      Nat.add_assoc]
  · show (w'.heap.addInside (ρ i)).scope (ρ j) = ((w.heap.addInside i).scope j).view ρ
    by_cases hj : j = w.heap.nextId
    · subst hj
      rw [hnew, Heap.scope_addInside_self, Heap.scope_addInside_self, h.chain i]
      rfl
    · have hne : ρ j ≠ w'.heap.nextId := fun heq => hj (h.injective j _ (heq.trans hnew.symm))
      rw [Heap.scope_addInside_of_ne _ hj, Heap.scope_addInside_of_ne _ hne, h.scope j]

theorem print (h : Image ρ before w w') (lines : List Line) :
    Image ρ before { w with printed := lines ++ w.printed }
      { w' with printed := lines ++ w'.printed } := by
  refine ⟨h.injective, h.next, h.scope, ?_⟩
  show lines ++ w.printed = lines ++ w'.printed ++ before
  rw [h.printed, List.append_assoc]

end Image

/-! ## Walks -/

/-- In an image `q` gives what `p` gives, as `f` shows it, and leaves an image of what `p`
leaves. -/
def Carried {α β : Type} (ρ : ScopeId → ScopeId) (before : List Line) (f : α → β) (p : Walk α)
    (q : Walk β) : Prop :=
  ∀ w w', Image ρ before w w' →
    (q w').1 = (p w).1.map f ∧ Image ρ before (p w).2 (q w').2

section

variable {α β γ δ : Type} {before : List Line} {f : α → β} {g : γ → δ}

theorem carried_pure {a : α} {b : β} (h : b = f a) :
    Carried ρ before f (pure a) (pure b) := by
  intro w w' hw
  subst h
  exact ⟨rfl, hw⟩

theorem carried_throw (e : Stop) : Carried ρ before f (throw e) (throw e) :=
  fun _ _ hw => ⟨rfl, hw⟩

theorem carried_abort (fault : Fault) : Carried ρ before f (abort fault) (abort fault) :=
  carried_throw _

theorem Carried.bind {p : Walk α} {q : Walk β} {k : α → Walk γ} {l : β → Walk δ}
    (h : Carried ρ before f p q) (hnext : ∀ a, Carried ρ before g (k a) (l (f a))) :
    Carried ρ before g (p >>= k) (q >>= l) := by
  intro w w' hw
  obtain ⟨hresult, hafter⟩ := h w w' hw
  rw [bind_run, bind_run]
  generalize p w = r at hresult hafter
  generalize q w' = r' at hresult hafter
  obtain ⟨e | a, w₁⟩ := r
  · obtain ⟨_, w₁'⟩ := r'
    cases hresult
    exact ⟨rfl, hafter⟩
  · obtain ⟨_, w₁'⟩ := r'
    cases hresult
    exact hnext a w₁ w₁' hafter

end

variable {before : List Line}

theorem carried_produce {v : Value} (hv : v.isResult) :
    Carried ρ before (Value.view ρ) (produce v) (produce v) := by
  cases v with
  | fault fault => exact carried_abort fault
  | _ => exact carried_pure (Value.view_of_isResult hv).symm

theorem carried_print (lines : List Line) :
    Carried ρ before id (print lines) (print lines) :=
  fun _ _ hw => ⟨rfl, hw.print lines.reverse⟩

theorem carried_bindName (scope : ScopeId) (name : Node) (v : Value) :
    Carried ρ before id (bindName scope name v) (bindName (ρ scope) name.unplaced (v.view ρ)) := by
  intro w w' hw
  unfold bindName
  rw [Node.boundName?_unplaced]
  cases name.boundName? with
  | some text => exact ⟨rfl, hw.bind scope text v⟩
  | none => exact ⟨rfl, hw⟩

theorem carried_enclose (scope : ScopeId) (bs : List (String × Value)) :
    Carried ρ before ρ (enclose scope bs)
      (enclose (ρ scope) (bs.map fun b => (b.1, b.2.view ρ))) := by
  intro w w' hw
  have hnew : ρ w.heap.nextId = w'.heap.nextId := hw.next 0
  have hin := (hw.addInside scope).bindAll w.heap.nextId bs
  rw [hnew] at hin
  exact ⟨congrArg Except.ok hnew.symm, hin⟩

theorem carried_name (scope : ScopeId) (text : String) :
    Carried ρ before (Value.view ρ) (name scope text) (name (ρ scope) text) := by
  intro w w' hw
  have hfind := hw.find? scope text
  unfold name
  rw [get_bind_run, get_bind_run, hfind]
  cases w.heap.find? scope text with
  | some v => exact ⟨rfl, hw⟩
  | none =>
    dsimp only [Option.map_none]
    cases Builtin.ofName? text with
    | some b => exact ⟨rfl, hw⟩
    | none => exact ⟨rfl, hw⟩

theorem carried_statements {walk walk' : Node → Walk Value}
    (h : ∀ e, Carried ρ before (Value.view ρ) (walk e) (walk' e.unplaced)) (ss : List Node)
    (last : Value) :
    Carried ρ before (Value.view ρ) (statements walk last ss)
      (statements walk' (last.view ρ) (ss.map unplaced)) := by
  induction ss generalizing last with
  | nil => exact carried_pure rfl
  | cons s ss ih =>
    refine (h s).bind fun v => ?_
    cases v with
    | returning v => exact carried_pure rfl
    | _ => exact ih _

theorem carried_mapM {walk walk' : Node → Walk Value}
    (h : ∀ e, Carried ρ before (Value.view ρ) (walk e) (walk' e.unplaced)) (es : List Node) :
    Carried ρ before (List.map (Value.view ρ)) (es.mapM walk) ((es.map unplaced).mapM walk') := by
  induction es with
  | nil => exact carried_pure rfl
  | cons e es ih =>
    rw [List.map_cons, List.mapM_cons, List.mapM_cons]
    exact (h e).bind fun v => ih.bind fun vs => carried_pure rfl

section

variable {maxDepth : Nat} {walk : Nat → Node → ScopeId → Walk Value}
  (h : ∀ depth e scope, Carried ρ before (Value.view ρ) (walk depth e scope)
    (walk depth e.unplaced (ρ scope)))

include h

theorem carried_apply (depth : Nat) (f : Value) (args : List Value) :
    Carried ρ before (Value.view ρ) (apply maxDepth depth walk f args)
      (apply maxDepth depth walk (f.view ρ) (args.map (Value.view ρ))) := by
  cases f with
  | builtin b =>
    unfold apply
    dsimp only [Value.view]
    rw [Builtin.apply_view]
    exact (carried_print _).bind fun _ => carried_produce (b.isResult_apply args)
  | function params body scope =>
    unfold apply
    dsimp only [Value.view]
    rw [List.length_map, List.length_map]
    by_cases harity : args.length ≠ params.length
    · simp only [if_pos harity]
      exact carried_abort _
    · simp only [if_neg harity]
      by_cases hdepth : maxDepth ≤ depth
      · simp only [if_pos hdepth]
        exact carried_abort _
      · simp only [if_neg hdepth]
        rw [Eval.bindings_view]
        refine (carried_enclose scope _).bind fun inner => ?_
        refine (h (depth + 1) body inner).bind fun v => ?_
        exact carried_pure (Value.arrived_view ρ v)
  | _ => exact carried_abort _

/-- One node: one case for each kind, and in each the subtrees are carried. -/
theorem carried_tree (depth : Nat) (node : Node) (scope : ScopeId) :
    Carried ρ before (Value.view ρ) (tree maxDepth depth walk node scope)
      (tree maxDepth depth walk node.unplaced (ρ scope)) := by
  have hhere : ∀ e, Carried ρ before (Value.view ρ) (walk depth e scope)
      (walk depth e.unplaced (ρ scope)) := fun e => h depth e scope
  cases node with
  | program _ ss =>
    rw [unplaced, unplacedAll_eq_map]
    refine (carried_statements hhere ss .null).bind fun v => ?_
    exact carried_pure (Value.arrived_view ρ v)
  | block _ ss =>
    rw [unplaced, unplacedAll_eq_map]
    exact carried_statements hhere ss .null
  | statement _ e => exact hhere e
  | binding _ name e =>
    refine (hhere e).bind fun v => ?_
    exact (carried_bindName scope name v).bind fun _ => carried_pure rfl
  | returning _ e => exact (hhere e).bind fun v => carried_pure rfl
  | integer | boolean | string => exact carried_pure rfl
  | function _ params body =>
    rw [unplaced, unplacedAll_eq_map]
    exact carried_pure rfl
  | identifier _ text => exact carried_name scope text
  | unary _ op e =>
    refine (hhere e).bind fun v => ?_
    rw [Value.unary_view]
    exact carried_produce (Value.isResult_unary op v)
  | binary _ l op r =>
    refine (hhere l).bind fun lv => (hhere r).bind fun rv => ?_
    rw [Value.binary_view]
    exact carried_produce (Value.isResult_binary op lv rv)
  | conditional _ c t e =>
    refine (hhere c).bind fun v => ?_
    rw [Value.truthy_view]
    by_cases htruthy : v.truthy = true
    · simp only [if_pos htruthy]
      exact hhere t
    · simp only [if_neg htruthy]
      cases e with
      | some e => exact hhere e
      | none => exact carried_pure rfl
  | call _ f args =>
    rw [unplaced, unplacedAll_eq_map]
    refine (hhere f).bind fun fv => ?_
    exact (carried_mapM hhere args).bind fun vs => carried_apply h depth fv vs
  | bare pos => exact carried_throw _

end

/-- **A walk over a tree is carried to one over the tree without its places**, by induction on the
room for active nodes. -/
theorem carried_node (ρ : ScopeId → ScopeId) (before : List Line) (maxDepth budget : Nat) :
    ∀ depth e scope, Carried ρ before (Value.view ρ) (node maxDepth budget depth e scope)
      (node maxDepth budget depth e.unplaced (ρ scope)) := by
  induction budget with
  | zero => exact fun _ _ _ => carried_abort _
  | succ budget ih => exact fun depth e scope => carried_tree ih depth e scope

end Walk

/-! ## Whole runs -/

namespace Heap

variable {h h' : Heap}

/-- All scopes with their places taken away. -/
def unplaced (h : Heap) : Heap := ⟨h.scopes.map (Scope.view id)⟩

theorem nextId_unplaced (h : Heap) : h.unplaced.nextId = h.nextId := by simp [unplaced, nextId]

theorem scope_unplaced (h : Heap) (i : ScopeId) : h.unplaced.scope i = (h.scope i).view id := by
  unfold unplaced scope
  by_cases hi : i < h.scopes.size
  · simp [Array.getD, hi]
  · simp [Array.getD, hi, Scope.view]

theorem faultless_unplaced_iff : h.unplaced.Faultless ↔ h.Faultless := by
  constructor
  · intro hall i b hb
    have hview := hall i (b.1, b.2.view id)
    rw [scope_unplaced, Value.faultless_view] at hview
    exact hview (List.mem_map_of_mem hb)
  · intro hall i b hb
    rw [scope_unplaced] at hb
    obtain ⟨c, hc, rfl⟩ := List.mem_map.1 hb
    dsimp only
    rw [Value.faultless_view]
    exact hall i c hc

theorem eq_of_scope (hsize : h'.nextId = h.nextId) (hscope : ∀ i, h'.scope i = h.scope i) :
    h' = h := by
  obtain ⟨ss⟩ := h
  obtain ⟨ss'⟩ := h'
  congr 1
  refine Array.ext hsize fun i hi hi' => ?_
  have heq := hscope i
  simpa [scope, Array.getD, hi, hi'] using heq

end Heap

namespace Walk

/-- A world without places is an image of it. -/
theorem image_unplaced (h : Heap) (lines before : List Line) :
    Image id before ⟨h, lines ++ before⟩ ⟨h.unplaced, lines⟩ where
  injective _ _ heq := heq
  next k := by rw [Heap.nextId_unplaced]; rfl
  scope := h.scope_unplaced
  printed := rfl

/-- It is the only one under the same numbers. -/
theorem Image.heap_eq {before : List Line} {w w' : World} (h : Image id before w w') :
    w'.heap = w.heap.unplaced := by
  refine Heap.eq_of_scope ?_ fun i => ?_
  · rw [Heap.nextId_unplaced]
    exact (h.next 0).symm
  · rw [Heap.scope_unplaced]
    exact h.scope i

end Walk

namespace Eval

variable {m : Machine}

/-- The machine with all places in its scopes taken away. -/
def Machine.unplaced (m : Machine) : Machine := { m with heap := m.heap.unplaced }

theorem reported_map (ρ : ScopeId → ScopeId) (r : Except Walk.Stop Value) :
    reported valueOf (r.map (Value.view ρ)) = (reported valueOf r).map (Value.view ρ) := by
  rcases r with (f | e) | v <;> rfl

/-- **A tree does the same without places**: it gives the same result, prints the same, and leaves
the same scopes, all without places. -/
theorem evalNode_unplaced (hm : m.heap.Faultless) (maxDepth budget : Nat) (n : Node)
    (i : ScopeId) :
    evalNode maxDepth budget n.unplaced i m.unplaced =
      ((evalNode maxDepth budget n i m).1.map (Value.view id),
        (evalNode maxDepth budget n i m).2.unplaced) := by
  have himage : Walk.Image id [] m.world m.unplaced.world := by
    have h := Walk.image_unplaced m.heap m.printed []
    rwa [List.append_nil] at h
  have hm' : m.unplaced.heap.Faultless := Heap.faultless_unplaced_iff.2 hm
  obtain ⟨hresult, hafter⟩ :=
    Walk.carried_node id [] maxDepth budget m.depth n i _ _ himage
  have hprinted := hafter.printed
  rw [List.append_nil] at hprinted
  rw [(agrees_evalNode maxDepth budget _ n i m rfl hm).1,
    (agrees_evalNode maxDepth budget _ n.unplaced i m.unplaced rfl hm').1]
  refine Prod.ext ?_ ?_
  · show reported valueOf _ = (reported valueOf _).map _
    rw [← reported_map]
    exact congrArg (reported valueOf) hresult
  · show m.unplaced.withWorld _ = (m.withWorld _).unplaced
    unfold Machine.withWorld Machine.unplaced
    dsimp only
    rw [← hafter.heap_eq]
    congr 1
    exact hprinted.symm

theorem evaluate_unplaced (hm : m.heap.Faultless) (maxDepth : Nat) (n : Node) (i : ScopeId) :
    evaluate maxDepth n.unplaced i m.unplaced =
      ((evaluate maxDepth n i m).1.map (Value.view id),
        (evaluate maxDepth n i m).2.unplaced) :=
  evalNode_unplaced hm maxDepth (nestingLimit maxDepth - m.nesting) n i

theorem Machine.reached_after (maxDepth : Nat) (programs : List Node) :
    Reached (after maxDepth programs) :=
  List.foldlRecOn (motive := Reached) programs _ Reached.start.addOutermost
    fun _ hm p _ => hm.run maxDepth p globalScope

theorem Machine.after_unplaced (maxDepth : Nat) (programs : List Node) :
    after maxDepth (programs.map Node.unplaced) = (after maxDepth programs).unplaced := by
  have hstart : Machine.initial.unplaced = .initial := by
    simp [unplaced, initial, Heap.unplaced, Heap.empty, Heap.addOutermost, Scope.view]
  have hruns : ∀ m : Machine, m.Resting →
      (programs.map Node.unplaced).foldl (fun m p => (evaluate maxDepth p globalScope m).2)
          m.unplaced =
        (programs.foldl (fun m p => (evaluate maxDepth p globalScope m).2) m).unplaced := by
    induction programs with
    | nil => exact fun _ _ => rfl
    | cons p programs ih =>
      intro m hm
      rw [List.map_cons, List.foldl_cons, List.foldl_cons, evaluate_unplaced hm.heap]
      exact ih _ (hm.evaluate maxDepth p globalScope).2
  have hwhole := hruns .initial (Reached.start.addOutermost).resting
  rwa [hstart] at hwhole

end Eval

end Scriptlet
