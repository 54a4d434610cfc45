import Mathlib
import Scriptlet.Proofs.Eval.Frame
import Scriptlet.Proofs.Eval.Image
import Scriptlet.Proofs.Eval.Meaning

/-!
# Evaluating an expression again

An expression that binds no name in its own scope leaves all scopes as they were. It may make
functions and call them, and so add scopes; but then it finds the same again when it is evaluated
once more, with new numbers for the scopes that it adds. So it comes to a value that looks the same,
and prints the same.

* `Heap.Frame.scope_eq`: what binds no name changes no scope.
* `shift`: the numbers of scopes the second time.
* `image_shift`: what the second evaluation finds is what the first one found, under these numbers.
* `evaluate_again`: the main statement.
-/

namespace Scriptlet

open Syntax (Node)

/-! ## What does not change -/

theorem Scope.Rebound.eq_of_nil {s s' : Scope} (h : Scope.Rebound [] s s') : s' = s := by
  cases h with
  | refl => rfl
  | bind hname => cases hname

theorem Heap.Frame.scope_eq {i : ScopeId} {h h' : Heap} (hf : Heap.Frame i [] h h') {j : ScopeId}
    (hj : j < h.nextId) : h'.scope j = h.scope j := by
  by_cases hji : j = i
  · subst hji
    exact hf.own.eq_of_nil
  · exact hf.others j hj hji

/-! ## Scopes that exist -/

section

variable {D : Discipline} {h : Heap} {ρ σ : ScopeId → ScopeId}

/-- A value refers to scopes that exist, so that numbers for others do not matter to it. -/
theorem Value.view_congr (hρ : ∀ i < h.nextId, ρ i = σ i) {v : Value} (hv : D.admits h v) :
    v.view ρ = v.view σ := by
  induction v with
  | function params body scope =>
    simp only [Value.view]
    rw [hρ scope hv.1]
  | returning v ih =>
    simp only [Value.view]
    rw [ih hv]
  | _ => rfl

theorem Scope.view_congr (hh : D.Holds h) (hρ : ∀ i < h.nextId, ρ i = σ i) {i : ScopeId}
    (hi : i < h.nextId) : (h.scope i).view ρ = (h.scope i).view σ := by
  unfold Scope.view
  congr 1
  · refine List.map_congr_left fun b hb => ?_
    rw [Value.view_congr hρ (hh.admits i b hb)]
  · refine List.map_congr_left fun j hj => hρ j ?_
    exact Nat.lt_trans (hh.linked.lt_of_mem_around i hi j hj) hi

end

/-! ## The second time -/

/-- The first `n` numbers stay, and those after them come after the first `n'`. -/
def shift (n n' i : Nat) : Nat := if i < n then i else i + (n' - n)

theorem shift_of_lt {n n' i : Nat} (hi : i < n) : shift n n' i = i := if_pos hi

theorem shift_add {n n' : Nat} (hle : n ≤ n') (k : Nat) : shift n n' (n + k) = n' + k := by
  unfold shift
  split <;> omega

theorem shift_injective {n n' : Nat} (i j : Nat) (h : shift n n' i = shift n n' j) : i = j := by
  unfold shift at h
  split at h <;> split at h <;> omega

/-- **What was there is found again.** If no scope that was there has changed, then the scopes now
are those of before under shifted numbers, with the new ones out of reach. -/
theorem image_shift {D : Discipline} {h h' : Heap} (hh : D.Holds h)
    (hle : h.nextId ≤ h'.nextId) (hsame : ∀ i < h.nextId, h'.scope i = h.scope i)
    (before : List Line) :
    Walk.Image (shift h.nextId h'.nextId) before ⟨h, before⟩ ⟨h'.unplaced, []⟩ where
  injective := shift_injective
  next k := by
    rw [Heap.nextId_unplaced]
    exact shift_add hle k
  scope i := by
    show h'.unplaced.scope (shift h.nextId h'.nextId i) = (h.scope i).view _
    rw [Heap.scope_unplaced]
    by_cases hi : i < h.nextId
    · rw [shift_of_lt hi, hsame i hi]
      exact Scope.view_congr hh (fun j hj => (shift_of_lt hj).symm) hi
    · -- a scope that does not exist yet binds nothing, on both sides
      have hge := Nat.not_lt.1 hi
      obtain ⟨k, rfl⟩ := Nat.exists_eq_add_of_le hge
      rw [shift_add hle k, Heap.scope_of_nextId_le _ (Nat.le_add_right _ k),
        Heap.scope_of_nextId_le _ hge]
      rfl
  printed := rfl

namespace Eval

/-- A tree that binds no name outside functions does the same when it is evaluated again: the walk
over it gives the same result under shifted numbers, and prints the same lines. -/
theorem Machine.Resting.again {D : Discipline} {m : Machine} (hm : m.Resting)
    (hheap : D.Holds m.heap) (maxDepth : Nat) {e : Node} (hlet : e.letNames = [])
    {i : ScopeId} (hi : i < m.heap.nextId) :
    ∃ ρ : ScopeId → ScopeId,
      (Eval.evaluate maxDepth e i (Eval.evaluate maxDepth e i m).2).1.map (Value.view id) =
        (Eval.evaluate maxDepth e i m).1.map (Value.view ρ) ∧
      ∃ lines, (Eval.evaluate maxDepth e i m).2.printed = lines ++ m.printed ∧
        (Eval.evaluate maxDepth e i (Eval.evaluate maxDepth e i m).2).2.printed =
          lines ++ (Eval.evaluate maxDepth e i m).2.printed := by
  have hframe := frames_evalNode maxDepth (nestingLimit maxDepth - m.nesting) e i m hi
  rw [hlet] at hframe
  obtain ⟨hrun, hm₁⟩ := hm.evaluate maxDepth e i
  have hrun₁ := (hm₁.evaluate maxDepth e i).1
  have hsame : ∀ j < m.heap.nextId,
      (Eval.evaluate maxDepth e i m).2.heap.scope j = m.heap.scope j := fun j hj =>
    hframe.scope_eq hj
  have hgrows : m.heap.nextId ≤ (Eval.evaluate maxDepth e i m).2.heap.nextId := hframe.grows
  generalize hnext : (Eval.evaluate maxDepth e i m).2 = m₁ at *
  have hprinted : m₁.printed = (Walk.run maxDepth e i m.world).2.printed := by
    rw [← hnext, hrun]
    rfl
  -- both evaluations are carried to one walk, over the tree without places
  obtain ⟨hfirst, hlines⟩ := Walk.carried_node (shift m.heap.nextId m₁.heap.nextId) m.printed
    maxDepth (nestingLimit maxDepth) 0 e i _ _ (image_shift hheap hgrows hsame m.printed)
  obtain ⟨hsecond, hlines₁⟩ := Walk.carried_node id m₁.printed maxDepth (nestingLimit maxDepth) 0 e
    i _ _ (Walk.image_unplaced m₁.heap [] m₁.printed)
  rw [shift_of_lt hi] at hfirst hlines
  refine ⟨shift m.heap.nextId m₁.heap.nextId, ?_, _, hprinted.trans hlines.printed, ?_⟩
  · rw [hrun₁, hrun]
    show (reported valueOf _).map _ = (reported valueOf _).map _
    rw [← reported_map, ← reported_map]
    exact congrArg (reported valueOf) (hsecond.symm.trans hfirst)
  · rw [hrun₁]
    exact hlines₁.printed

/-- **An expression without bindings gives the same again.** After any texts, in any scope, an
expression that is parsed of a text and binds no name outside functions comes to values that look
the same when it is evaluated twice in a row, and prints the same lines both times. -/
theorem evaluate_again (depth maxDepth : Nat) (cfg : Parser.Config) (sources : List String)
    {source : String} {e : Node} (he : e.Within (Parsed.ofSource source cfg).program)
    (hlet : e.letNames = []) {i : ScopeId}
    (hi : i < (Machine.after depth
      (sources.map fun s => (Parsed.ofSource s cfg).program)).heap.nextId) :
    let m := Machine.after depth (sources.map fun s => (Parsed.ofSource s cfg).program)
    let first := evaluate maxDepth e i m
    let second := evaluate maxDepth e i first.2
    (∃ v v', first.1 = .ok v ∧ second.1 = .ok v' ∧ v.Alike v') ∧
      ∃ lines, first.2.printed = lines ++ m.printed ∧
        second.2.printed = lines ++ first.2.printed := by
  intro m first second
  have hm : m.Resting := (Machine.reached_after depth _).resting
  have hheap := (holds_after_sources depth cfg sources).1
  obtain ⟨ρ, hresult, hlines⟩ := hm.again hheap maxDepth hlet hi
  refine ⟨?_, hlines⟩
  obtain ⟨v, hfirst⟩ := exists_value_of_parsed depth maxDepth cfg sources he hi
  have hview : second.1.map (Value.view id) = first.1.map (Value.view ρ) := hresult
  rw [show first.1 = .ok v from hfirst] at hview ⊢
  cases hsecond : second.1 with
  | error err =>
    rw [hsecond] at hview
    cases hview
  | ok v' =>
    rw [hsecond] at hview
    exact ⟨v, v', rfl, rfl, Value.alike_of_view (Except.ok.inj hview)⟩

section

open Syntax.Node

/-- Binds a function that prints what it is given and gives a function that has it, and calls it. -/
def keepsArgument : String := "let f = fn(x) { puts(x); fn() { x } }; f(7)"

/-- The call that is written `f(x)`. -/
def callAgain : Node := call ⟨1, 2⟩ (identifier ⟨1, 1⟩ "f") [identifier ⟨1, 3⟩ "x"]

/-- In the scope of a call, the function gives a new function each time, and prints. -/
theorem evaluate_callAgain :
    callAgain.Within (Parsed.ofSource "f(x)" {}).program ∧
      let m := Machine.after 4 [(Parsed.ofSource keepsArgument {}).program]
      let first := evaluate 4 callAgain 1 m
      let second := evaluate 4 callAgain 1 first.2
      ((∃ v v', first.1 = .ok v ∧ second.1 = .ok v' ∧ v.Alike v') ∧
        ∃ lines, first.2.printed = lines ++ m.printed ∧
          second.2.printed = lines ++ first.2.printed) ∧
      first.1.toOption.map Value.type = some .function ∧
      second.2.printed.map Line.text = ["7", "7", "7"] := by
  have hprogram : (Parsed.ofSource "f(x)" {}).program =
      program .start [statement .start callAgain] := by cbv
  have hwithin : callAgain.Within (Parsed.ofSource "f(x)" {}).program := by
    rw [hprogram]
    exact .part (List.mem_singleton_self _) (.part (List.mem_singleton_self _) .self)
  have htext : keepsArgument.toList = _ := String.toList_ofList
  refine ⟨hwithin, evaluate_again 4 4 {} [keepsArgument] hwithin rfl ?_, ?_⟩
  all_goals
    simp only [List.map_singleton, Parsed.ofSource, Token.scan_of_toList htext]
    decide +kernel

end

end Eval

end Scriptlet
