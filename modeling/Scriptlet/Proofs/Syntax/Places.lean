import Scriptlet.Proofs.Syntax.Shape

/-!
# Trees without their places

The place of a node is where its token stands in a text. It plays no part in what a tree says. So a
place may be taken away, or made to tell something else: here, how many functions are around the
node. A bare node keeps its place, as it says nothing else.

* `Node.unplaced`: the tree with all places taken away.
* `Node.ranked`: the tree with the number of functions around each node for its place.
* `Node.rank`: the number of functions around the root of a ranked tree.
* `render_unplaced`: a tree is written the same without its places.
* `same_of_unplaced`: trees that are equal without their places are the same.
-/

namespace Scriptlet.Syntax.Node

mutual

/-- The tree with all places taken away. -/
def unplaced : Node → Node
  | program _ ss => program .unknown (unplacedAll ss)
  | block _ ss => block .unknown (unplacedAll ss)
  | binding _ name value => binding .unknown (unplaced name) (unplaced value)
  | returning _ value => returning .unknown (unplaced value)
  | statement _ e => statement .unknown (unplaced e)
  | identifier _ name => identifier .unknown name
  | integer _ n => integer .unknown n
  | boolean _ b => boolean .unknown b
  | string _ s => string .unknown s
  | unary _ op e => unary .unknown op (unplaced e)
  | binary _ l op r => binary .unknown (unplaced l) op (unplaced r)
  | conditional _ c t e => conditional .unknown (unplaced c) (unplaced t) (unplacedIn e)
  | function _ params body => function .unknown (unplacedAll params) (unplaced body)
  | call _ f args => call .unknown (unplaced f) (unplacedAll args)
  | bare pos => bare pos

/-- The trees of a list with all places taken away. -/
def unplacedAll : List Node → List Node
  | [] => []
  | n :: ns => unplaced n :: unplacedAll ns

/-- A tree that may be absent with all places taken away. -/
def unplacedIn : Option Node → Option Node
  | none => none
  | some n => some (unplaced n)

end

mutual

/-- The tree with the number of functions around each node for its place, if `k` are around the
tree. -/
def ranked (k : Nat) : Node → Node
  | program _ ss => program ⟨k, 0⟩ (rankedAll k ss)
  | block _ ss => block ⟨k, 0⟩ (rankedAll k ss)
  | binding _ name value => binding ⟨k, 0⟩ (ranked k name) (ranked k value)
  | returning _ value => returning ⟨k, 0⟩ (ranked k value)
  | statement _ e => statement ⟨k, 0⟩ (ranked k e)
  | identifier _ name => identifier ⟨k, 0⟩ name
  | integer _ n => integer ⟨k, 0⟩ n
  | boolean _ b => boolean ⟨k, 0⟩ b
  | string _ s => string ⟨k, 0⟩ s
  | unary _ op e => unary ⟨k, 0⟩ op (ranked k e)
  | binary _ l op r => binary ⟨k, 0⟩ (ranked k l) op (ranked k r)
  | conditional _ c t e => conditional ⟨k, 0⟩ (ranked k c) (ranked k t) (rankedIn k e)
  | function _ params body => function ⟨k, 0⟩ (rankedAll (k + 1) params) (ranked (k + 1) body)
  | call _ f args => call ⟨k, 0⟩ (ranked k f) (rankedAll k args)
  | bare pos => bare pos

/-- The trees of a list with the number of functions around each node for its place. -/
def rankedAll (k : Nat) : List Node → List Node
  | [] => []
  | n :: ns => ranked k n :: rankedAll k ns

/-- A tree that may be absent with the number of functions around each node for its place. -/
def rankedIn (k : Nat) : Option Node → Option Node
  | none => none
  | some n => some (ranked k n)

end

/-- The number of functions around the root of a ranked tree. -/
def rank (n : Node) : Nat := n.pos.line.toNat

/-! ## Lists of trees -/

theorem unplacedAll_eq_map (ns : List Node) : unplacedAll ns = ns.map unplaced := by
  induction ns with
  | nil => rfl
  | cons n ns ih => rw [unplacedAll, ih, List.map_cons]

theorem unplacedIn_eq_map (n : Option Node) : unplacedIn n = n.map unplaced := by
  cases n <;> rfl

theorem rankedAll_eq_map (k : Nat) (ns : List Node) : rankedAll k ns = ns.map (ranked k) := by
  induction ns with
  | nil => rfl
  | cons n ns ih => rw [rankedAll, ih, List.map_cons]

theorem parts_ranked (k : Nat) (n : Node) : (n.ranked k).parts = n.parts.map (ranked k) := by
  cases n with
  | program _ ss | block _ ss => exact rankedAll_eq_map k ss
  | conditional _ c t e => cases e <;> rfl
  | call _ f args => exact congrArg (f.ranked k :: ·) (rankedAll_eq_map k args)
  | _ => rfl

/-! ## What places do not bear on -/

theorem boundName?_unplaced (n : Node) : n.unplaced.boundName? = n.boundName? := by
  cases n <;> rfl

mutual

theorem render_unplaced : (n : Node) → n.unplaced.render = n.render
  | program _ ss | block _ ss => congrArg (" ".intercalate ·) (renderAll_unplaced ss)
  | binding _ name value => by
    rw [unplaced, render_binding, render_binding, render_unplaced name, render_unplaced value]
  | returning _ value => by
    rw [unplaced, render_returning, render_returning, render_unplaced value]
  | statement _ e => render_unplaced e
  | unary _ op e => by rw [unplaced, render_unary, render_unary, render_unplaced e]
  | binary _ l op r => by
    rw [unplaced, render_binary, render_binary, render_unplaced l, render_unplaced r]
  | conditional _ c t e => by
    rw [unplaced, render_conditional, render_conditional, render_unplaced c, render_unplaced t,
      renderElse_unplaced e]
  | function _ params body => by
    rw [unplaced, render_function, render_function, renderAll_unplaced params,
      render_unplaced body]
  | call _ f args => by
    rw [unplaced, render_call, render_call, render_unplaced f, renderAll_unplaced args]
  | identifier .. | integer .. | boolean .. | string .. | bare .. => rfl

theorem renderAll_unplaced : (ns : List Node) → renderAll (unplacedAll ns) = renderAll ns
  | [] => rfl
  | n :: ns => by
    rw [unplacedAll, renderAll_cons, renderAll_cons, render_unplaced n, renderAll_unplaced ns]

theorem renderElse_unplaced : (n : Option Node) → renderElse (unplacedIn n) = renderElse n
  | none => rfl
  | some n => by rw [unplacedIn, renderElse_some, renderElse_some, render_unplaced n]

end

mutual

theorem frames_unplaced : (n : Node) → n.unplaced.frames = n.frames
  | program _ ss | block _ ss => congrArg (1 + ·) (framesAll_unplaced ss)
  | binding _ name value => by
    rw [unplaced, frames, frames, frames_unplaced name, frames_unplaced value]
  | returning _ e | statement _ e | unary _ _ e => congrArg (1 + ·) (frames_unplaced e)
  | binary _ l _ r => by rw [unplaced, frames, frames, frames_unplaced l, frames_unplaced r]
  | conditional _ c t e => by
    rw [unplaced, frames, frames, frames_unplaced c, frames_unplaced t, framesIn_unplaced e]
  | function _ params body => by
    rw [unplaced, frames, frames, framesAll_unplaced params, frames_unplaced body]
  | call _ f args => by
    rw [unplaced, frames, frames, frames_unplaced f, framesAll_unplaced args]
  | identifier .. | integer .. | boolean .. | string .. | bare .. => rfl

theorem framesAll_unplaced : (ns : List Node) → framesAll (unplacedAll ns) = framesAll ns
  | [] => rfl
  | n :: ns => by rw [unplacedAll, framesAll, framesAll, frames_unplaced n, framesAll_unplaced ns]

theorem framesIn_unplaced : (n : Option Node) → framesIn (unplacedIn n) = framesIn n
  | none => rfl
  | some n => by rw [unplacedIn, framesIn, framesIn, frames_unplaced n]

end

mutual

/-- **Trees that are equal without their places are the same.** -/
theorem same_of_unplaced (n n' : Node) (h : n'.unplaced = n.unplaced) : n.same n' := by
  cases n with
  | program _ ss =>
    cases n' with
    | program _ ss' =>
      exact sameAll_of_unplaced ss ss' (program.inj h).2
    | _ => cases h
  | block _ ss =>
    cases n' with
    | block _ ss' =>
      exact sameAll_of_unplaced ss ss' (block.inj h).2
    | _ => cases h
  | binding _ name value =>
    cases n' with
    | binding _ name' value' =>
      obtain ⟨-, hname, hvalue⟩ := binding.inj h
      exact Bool.and_eq_true_iff.2
        ⟨same_of_unplaced name name' hname, same_of_unplaced value value' hvalue⟩
    | _ => cases h
  | returning _ e =>
    cases n' with
    | returning _ e' =>
      exact same_of_unplaced e e' (returning.inj h).2
    | _ => cases h
  | statement _ e =>
    cases n' with
    | statement _ e' =>
      exact same_of_unplaced e e' (statement.inj h).2
    | _ => cases h
  | identifier =>
    cases n' with
    | identifier => exact beq_iff_eq.2 (identifier.inj h).2.symm
    | _ => cases h
  | integer =>
    cases n' with
    | integer => exact beq_iff_eq.2 (integer.inj h).2.symm
    | _ => cases h
  | boolean =>
    cases n' with
    | boolean => exact beq_iff_eq.2 (boolean.inj h).2.symm
    | _ => cases h
  | string =>
    cases n' with
    | string => exact beq_iff_eq.2 (string.inj h).2.symm
    | _ => cases h
  | unary _ op e =>
    cases n' with
    | unary _ op' e' =>
      obtain ⟨-, hop, he⟩ := unary.inj h
      exact Bool.and_eq_true_iff.2 ⟨beq_iff_eq.2 hop.symm, same_of_unplaced e e' he⟩
    | _ => cases h
  | binary _ l op r =>
    cases n' with
    | binary _ l' op' r' =>
      obtain ⟨-, hl, hop, hr⟩ := binary.inj h
      have hleft := Bool.and_eq_true_iff.2 ⟨same_of_unplaced l l' hl, beq_iff_eq.2 hop.symm⟩
      exact Bool.and_eq_true_iff.2 ⟨hleft, same_of_unplaced r r' hr⟩
    | _ => cases h
  | conditional _ c t e =>
    cases n' with
    | conditional _ c' t' e' =>
      obtain ⟨-, hc, ht, he⟩ := conditional.inj h
      have hleft := Bool.and_eq_true_iff.2 ⟨same_of_unplaced c c' hc, same_of_unplaced t t' ht⟩
      exact Bool.and_eq_true_iff.2 ⟨hleft, sameOption_of_unplaced e e' he⟩
    | _ => cases h
  | function _ params body =>
    cases n' with
    | function _ params' body' =>
      obtain ⟨-, hparams, hbody⟩ := function.inj h
      exact Bool.and_eq_true_iff.2
        ⟨sameAll_of_unplaced params params' hparams, same_of_unplaced body body' hbody⟩
    | _ => cases h
  | call _ f args =>
    cases n' with
    | call _ f' args' =>
      obtain ⟨-, hf, hargs⟩ := call.inj h
      exact Bool.and_eq_true_iff.2 ⟨same_of_unplaced f f' hf, sameAll_of_unplaced args args' hargs⟩
    | _ => cases h
  | bare =>
    cases n' with
    | bare => rfl
    | _ => cases h
termination_by structural n

theorem sameAll_of_unplaced (ns ns' : List Node) (h : unplacedAll ns' = unplacedAll ns) :
    sameAll ns ns' := by
  match ns, ns', h with
  | [], [], _ => rfl
  | n :: ns, n' :: ns', h =>
    obtain ⟨hn, hns⟩ := List.cons.inj h
    exact Bool.and_eq_true_iff.2 ⟨same_of_unplaced n n' hn, sameAll_of_unplaced ns ns' hns⟩
termination_by structural ns

theorem sameOption_of_unplaced (n n' : Option Node) (h : unplacedIn n' = unplacedIn n) :
    sameOption n n' := by
  match n, n', h with
  | none, none, _ => rfl
  | some n, some n', h => exact same_of_unplaced n n' (Option.some.inj h)
termination_by structural n

end

mutual

/-- What a place tells is taken away with it. -/
theorem unplaced_ranked (k : Nat) : (n : Node) → (n.ranked k).unplaced = n.unplaced
  | program _ ss | block _ ss => by simp only [ranked, unplaced, unplacedAll_ranked k ss]
  | binding _ name value => by
    simp only [ranked, unplaced, unplaced_ranked k name, unplaced_ranked k value]
  | returning _ value => by simp only [ranked, unplaced, unplaced_ranked k value]
  | statement _ e => by simp only [ranked, unplaced, unplaced_ranked k e]
  | unary _ op e => by simp only [ranked, unplaced, unplaced_ranked k e]
  | binary _ l op r => by simp only [ranked, unplaced, unplaced_ranked k l, unplaced_ranked k r]
  | conditional _ c t e => by
    simp only [ranked, unplaced, unplaced_ranked k c, unplaced_ranked k t, unplacedIn_ranked k e]
  | function _ params body => by
    simp only [ranked, unplaced, unplacedAll_ranked (k + 1) params, unplaced_ranked (k + 1) body]
  | call _ f args => by
    simp only [ranked, unplaced, unplaced_ranked k f, unplacedAll_ranked k args]
  | identifier .. | integer .. | boolean .. | string .. | bare .. => rfl

theorem unplacedAll_ranked (k : Nat) : (ns : List Node) →
    unplacedAll (rankedAll k ns) = unplacedAll ns
  | [] => rfl
  | n :: ns => by simp only [rankedAll, unplacedAll, unplaced_ranked k n, unplacedAll_ranked k ns]

theorem unplacedIn_ranked (k : Nat) : (n : Option Node) →
    unplacedIn (rankedIn k n) = unplacedIn n
  | none => rfl
  | some n => by simp only [rankedIn, unplacedIn, unplaced_ranked k n]

end

/-- A ranked tree tells how many functions are around it, unless it is bare. -/
theorem rank_ranked {n : Node} (hn : ∀ pos, n ≠ bare pos) (k : Nat) : (n.ranked k).rank = k := by
  cases n with
  | bare pos => exact absurd rfl (hn pos)
  | _ => rfl

end Scriptlet.Syntax.Node
