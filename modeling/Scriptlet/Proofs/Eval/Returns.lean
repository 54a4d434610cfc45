import Scriptlet.Parser.Program
import Scriptlet.Proofs.Eval.Faultless
import Scriptlet.Proofs.Eval.Visits
import Scriptlet.Proofs.Syntax.Shape

/-!
# What is returned stays in its call

A `return` makes a value that ends the statements around it, and is taken apart where its call or
its program ends. That is all there is to it as long as every `return` is a statement of its own
call or program, at most inside conditionals that are statements themselves. Then no returning
value is bound to a name, and none is what a call or a program comes to.

A conditional that stands for a value may return too, and nothing takes that apart.

* `Node.returnsInPlace`: no `return` is where a value is asked for.
* `Value.plain`: no returning value, and no function that makes one where a value is asked for.
* `keeps_evalNode`: scopes stay plain, and what is asked for is plain.
* `evaluate_unwraps`: the main statement, for every point of a run.
* `wrapper_escapes`: a program for which all of that fails.
-/

namespace Scriptlet

open Syntax (Node)

/-! ## Where a tree returns -/

namespace Syntax.Node

mutual

/-- Whether evaluating a tree may come to a `return`, that of a call or of a program inside it
apart. -/
def returns : Node → Bool
  | returning .. => true
  | block _ ss => returnsOf ss
  | statement _ e => returns e
  | conditional _ _ t e => returns t || returnsIn e
  | _ => false

/-- Whether one of the trees of a list may come to a `return`. -/
def returnsOf : List Node → Bool
  | [] => false
  | n :: ns => returns n || returnsOf ns

/-- Whether a tree that may be absent may come to a `return`. -/
def returnsIn : Option Node → Bool
  | none => false
  | some n => returns n

end

/-- Whether none of the trees right under a node that it asks for a value may come to a
`return`. -/
def asksInPlace : Node → Bool
  | binding _ _ e | returning _ e | unary _ _ e => !e.returns
  | binary _ l _ r => !l.returns && !r.returns
  | conditional _ c _ _ => !c.returns
  | call _ f args => !f.returns && args.all (!·.returns)
  | _ => true

/-- Whether no `return` in a tree is where a value is asked for. -/
def returnsInPlace (n : Node) : Bool := n.every asksInPlace

section

variable {pos : Pos} {name e f l r c t body : Node} {op : String} {ss params args : List Node}

theorem returnsInPlace_of_mem {n : Node} (h : everyOf asksInPlace ss) (hn : n ∈ ss) :
    n.returnsInPlace := every_of_mem h hn

theorem returnsInPlace_program :
    (program pos ss).returnsInPlace ↔ everyOf asksInPlace ss := by
  simp [returnsInPlace, every, asksInPlace]

theorem returnsInPlace_block : (block pos ss).returnsInPlace ↔ everyOf asksInPlace ss := by
  simp [returnsInPlace, every, asksInPlace]

theorem returnsInPlace_statement : (statement pos e).returnsInPlace ↔ e.returnsInPlace := by
  simp [returnsInPlace, every, asksInPlace]

theorem returnsInPlace_binding :
    (binding pos name e).returnsInPlace ↔
      e.returns = false ∧ name.returnsInPlace ∧ e.returnsInPlace := by
  simp [returnsInPlace, every, asksInPlace, and_assoc]

theorem returnsInPlace_returning :
    (returning pos e).returnsInPlace ↔ e.returns = false ∧ e.returnsInPlace := by
  simp [returnsInPlace, every, asksInPlace]

theorem returnsInPlace_unary :
    (unary pos op e).returnsInPlace ↔ e.returns = false ∧ e.returnsInPlace := by
  simp [returnsInPlace, every, asksInPlace]

theorem returnsInPlace_binary :
    (binary pos l op r).returnsInPlace ↔
      (l.returns = false ∧ r.returns = false) ∧ l.returnsInPlace ∧ r.returnsInPlace := by
  simp [returnsInPlace, every, asksInPlace, and_assoc]

theorem returnsInPlace_conditional {e : Option Node} :
    (conditional pos c t e).returnsInPlace ↔
      c.returns = false ∧ c.returnsInPlace ∧ t.returnsInPlace ∧ everyIn asksInPlace e := by
  simp [returnsInPlace, every, asksInPlace, and_assoc]

theorem returnsInPlace_function :
    (function pos params body).returnsInPlace ↔
      everyOf asksInPlace params ∧ body.returnsInPlace := by
  simp [returnsInPlace, every, asksInPlace]

theorem returnsInPlace_call :
    (call pos f args).returnsInPlace ↔
      (f.returns = false ∧ ∀ a ∈ args, a.returns = false) ∧ f.returnsInPlace ∧
        everyOf asksInPlace args := by
  simp [returnsInPlace, every, asksInPlace, and_assoc]

end

theorem returns_of_mem {n : Node} {ns : List Node} (hn : n ∈ ns) (h : n.returns) :
    returnsOf ns := by
  induction ns with
  | nil => cases hn
  | cons n' ns ih =>
    rw [returnsOf, Bool.or_eq_true]
    rcases List.mem_cons.1 hn with rfl | hrest
    · exact .inl h
    · exact .inr (ih hrest)

end Syntax.Node

/-! ## Plain values -/

namespace Value

/-- Whether a value returns no other, and if it is a function, every `return` in it is in place. -/
def plain : Value → Bool
  | returning _ => false
  | function _ body _ => body.returnsInPlace
  | _ => true

/-- Whether a value is one that the tree `n` can come to: a plain one, which may be on its way
back if the tree returns. -/
def fits (n : Node) (v : Value) : Bool := if n.returns then v.arrived.plain else v.plain

variable {v : Value} {n n' : Node}

theorem plain_arrived_of_plain (h : v.plain) : v.arrived.plain := by
  cases v with
  | returning v => simp [plain] at h
  | _ => exact h

theorem fits_of_plain (h : v.plain) : v.fits n := by
  unfold fits
  split
  · exact plain_arrived_of_plain h
  · exact h

theorem plain_of_fits (hn : n.returns = false) (h : v.fits n) : v.plain := by
  rwa [fits, hn] at h

theorem plain_arrived_of_fits (h : v.fits n) : v.arrived.plain := by
  unfold fits at h
  split at h
  · exact h
  · exact plain_arrived_of_plain h

theorem fits_of_returns (hn : n.returns → n'.returns) (h : v.fits n) : v.fits n' := by
  unfold fits
  split
  · exact plain_arrived_of_fits h
  · rename_i hn'
    exact plain_of_fits (by simpa using fun h => hn' (hn h)) h

/-- A value that does not end the statements around it is plain. -/
theorem plain_of_not_stops (h : v.arrived.plain) (hstops : v.stops = false) : v.plain := by
  cases v with
  | returning v => simp [stops] at hstops
  | _ => exact h

theorem plain_of_isResult (h : v.isResult) : v.plain := by
  cases v with
  | returning v => simp [isResult] at h
  | function params body scope => simp [isResult] at h
  | _ => rfl

theorem plain_of_isFault (h : v.isFault) : v.plain := by
  cases v with
  | fault f => rfl
  | _ => simp [isFault] at h

theorem type_ne_returning_of_plain (h : v.plain) : v.type ≠ .returning := by
  cases v with
  | returning v => simp [plain] at h
  | _ => simp [type]

end Value

/-! ## Computations that keep scopes plain -/

namespace Eval

open Syntax.Node

/-- While all scopes bind plain values, `act` keeps it so, and what it gives satisfies `post`. -/
def Keeps {α : Type} (post : α → Prop) (act : Eval α) : Prop :=
  ∀ m : Machine, m.heap.Binds Value.plain →
    (act m).2.heap.Binds Value.plain ∧ ∀ a, (act m).1 = .ok a → post a

section

variable {α β : Type} {post : α → Prop} {post' : β → Prop}

theorem keeps_pure {a : α} (h : post a) : Keeps post (pure a) := by
  intro m hm
  refine ⟨hm, ?_⟩
  intro a' ha'
  cases ha'
  exact h

theorem keeps_throw (e : Meaningless) : Keeps post (throw e) :=
  fun _ hm => ⟨hm, fun _ h => by cases h⟩

theorem keeps_get {k : Machine → Eval α}
    (h : ∀ m : Machine, m.heap.Binds Value.plain → Keeps post (k m)) : Keeps post (get >>= k) :=
  fun m hm => h m hm m hm

theorem Keeps.bind {act : Eval α} {k : α → Eval β} (h : Keeps post act)
    (hnext : ∀ a, post a → Keeps post' (k a)) : Keeps post' (act >>= k) := by
  intro m hm
  obtain ⟨hheap, hpost⟩ := h m hm
  rw [bind_run]
  generalize act m = r at hheap hpost
  obtain ⟨err | a, m₁⟩ := r
  · exact ⟨hheap, fun _ h => by cases h⟩
  · exact hnext a (hpost a rfl) m₁ hheap

theorem Keeps.checked {act : Eval Value} {k : Value → Eval Value} {post post' : Value → Prop}
    (h : Keeps post act) (hfault : ∀ v : Value, v.isFault → post' v)
    (hnext : ∀ v, post v → Keeps post' (k v)) :
    Keeps post' (act >>= fun v => if v.isFault then pure v else k v) := by
  refine h.bind fun v hv => ?_
  by_cases hf : v.isFault = true
  · simp only [if_pos hf]
    exact keeps_pure (hfault v hf)
  · simp only [if_neg hf]
    exact hnext v hv

theorem Keeps.mono {act : Eval α} {post₁ : α → Prop} (h : Keeps post act)
    (himp : ∀ a, post a → post₁ a) : Keeps post₁ act :=
  fun m hm => ⟨(h m hm).1, fun a ha => himp a ((h m hm).2 a ha)⟩

theorem Keeps.nested {act : Eval α} (h : Keeps post act) : Keeps post (nested act) :=
  fun m hm => h { m with nesting := m.nesting + 1 } hm

theorem Keeps.called {act : Eval α} (h : Keeps post act) : Keeps post (called act) :=
  fun m hm => h { m with depth := m.depth + 1 } hm

end

/-! ## The parts of the evaluator -/

theorem keeps_evalName (scope : ScopeId) (text : String) :
    Keeps (fun v => v.plain) (evalName scope text) := by
  refine keeps_get fun m hm => ?_
  cases hfind : m.heap.find? scope text with
  | some v => exact keeps_pure (hm.find? hfind)
  | none =>
    cases Builtin.ofName? text with
    | some b => exact keeps_pure rfl
    | none => exact keeps_pure rfl

theorem keeps_bindName (scope : ScopeId) (name : Node) {v : Value} (hv : v.plain) :
    Keeps (fun _ => True) (bindName scope name v) := by
  intro m hm
  refine ⟨?_, fun _ _ => trivial⟩
  unfold bindName
  cases name.boundName? with
  | some text => exact hm.bind scope text hv
  | none => exact hm

/-- Statements come to what one of them returns, or to a plain value. -/
theorem keeps_runStatements {eval : Node → Eval Value} {ss : List Node}
    (h : ∀ s ∈ ss, Keeps (fun v => v.fits s) (eval s)) (pos : Pos) {last : Value}
    (hlast : last.plain) :
    Keeps (fun v => v.fits (.block pos ss)) (runStatements eval last ss) := by
  induction ss generalizing last with
  | nil => exact keeps_pure (Value.fits_of_plain hlast)
  | cons s ss ih =>
    have hhead : s.returns → (block pos (s :: ss)).returns := returns_of_mem List.mem_cons_self
    have htail : (block pos ss).returns → (block pos (s :: ss)).returns := by
      intro hss
      show (s.returns || returnsOf ss) = true
      rw [Bool.or_eq_true]
      exact .inr hss
    refine (h s (by simp)).bind fun v hv => ?_
    by_cases hstops : v.stops = true
    · simp only [if_pos hstops]
      exact keeps_pure (Value.fits_of_returns hhead hv)
    · simp only [if_neg hstops]
      have hplain := Value.plain_of_not_stops (Value.plain_arrived_of_fits hv)
        (by simpa using hstops)
      refine (ih (fun s' hs' => h s' (by simp [hs'])) hplain).mono fun v' hv' => ?_
      exact Value.fits_of_returns htail hv'

theorem keeps_evalArguments {eval : Node → Eval Value} {es : List Node}
    (h : ∀ e ∈ es, Keeps (fun v => v.plain) (eval e)) :
    Keeps (fun r => ∀ vs, r = .ok vs → ∀ v ∈ vs, v.plain) (evalArguments eval es) := by
  induction es with
  | nil => exact keeps_pure (by simp)
  | cons e es ih =>
    have hrest := ih fun e' he' => h e' (by simp [he'])
    refine (h e (by simp)).bind fun v hv => ?_
    cases v with
    | fault f => exact keeps_pure (by simp)
    | _ =>
      refine hrest.bind ?_
      rintro (f | vs) hvs
      · exact keeps_pure (by simp)
      · refine keeps_pure ?_
        rintro _ ⟨⟩
        exact List.forall_mem_cons.2 ⟨hv, hvs vs rfl⟩

/-- A way to evaluate trees that keeps scopes plain, for trees with every `return` in place. -/
def KeepsTrees (eval : Node → ScopeId → Eval Value) : Prop :=
  ∀ n i, n.returnsInPlace → Keeps (fun v => v.fits n) (eval n i)

section

variable {maxDepth : Nat} {eval : Node → ScopeId → Eval Value} (h : KeepsTrees eval)

include h

/-- A tree that is asked for a value gives a plain one. -/
theorem KeepsTrees.asked {n : Node} (i : ScopeId) (hn : n.returnsInPlace)
    (hreturns : n.returns = false) : Keeps (fun v => v.plain) (eval n i) :=
  (h n i hn).mono fun _ => Value.plain_of_fits hreturns

/-- Where a tree is asked for a value, what goes on goes on with a plain one. A fault, with which
nothing does, is plain too. -/
theorem KeepsTrees.checked {n n' : Node} {k : Value → Eval Value} (i : ScopeId)
    (hn : n.returnsInPlace) (hreturns : n.returns = false)
    (hnext : ∀ v, v.plain → Keeps (fun v => v.fits n') (k v)) :
    Keeps (fun v => v.fits n') (eval n i >>= fun v => if v.isFault then pure v else k v) :=
  (h.asked i hn hreturns).checked (fun _ hv => Value.fits_of_plain (Value.plain_of_isFault hv))
    hnext

/-- **A call comes to a plain value**: what its body returns has arrived. -/
theorem keeps_applyWith {f : Value} (hf : f.plain) {args : List Value}
    (hargs : ∀ v ∈ args, v.plain) : Keeps (fun v => v.plain) (applyWith maxDepth eval f args) := by
  cases f with
  | builtin b =>
    have hprint : Keeps (fun _ => True) (print (b.apply args).2) :=
      fun m hm => ⟨hm, fun _ _ => trivial⟩
    exact hprint.bind fun _ _ => keeps_pure (Value.plain_of_isResult (b.isResult_apply args))
  | function params body scope =>
    unfold applyWith
    by_cases harity : args.length ≠ params.length
    · simp only [if_pos harity]
      exact keeps_pure rfl
    · simp only [if_neg harity]
      refine keeps_get fun m _ => ?_
      by_cases hdepth : maxDepth ≤ m.depth
      · simp only [if_pos hdepth]
        exact keeps_pure rfl
      · simp only [if_neg hdepth]
        have henclose : Keeps (fun _ => True) (enclose scope (bindings params args)) :=
          fun m hm => ⟨(hm.addInside scope).bindAll _ (forall_mem_bindings hargs),
            fun _ _ => trivial⟩
        refine henclose.bind fun inner _ => ?_
        refine (h body inner hf).called.bind fun v hv => ?_
        exact keeps_pure (Value.plain_arrived_of_fits hv)
  | _ => exact keeps_pure rfl

/-- One node: one case for each kind, and in each what is asked for is plain. -/
theorem keeps_evalWith : KeepsTrees (evalWith maxDepth eval) := by
  intro n i hn
  have hnull : Value.null.plain := rfl
  cases n with
  | program pos ss =>
    have hin := returnsInPlace_program.1 hn
    have hss := keeps_runStatements (fun s hs => h s i (returnsInPlace_of_mem hin hs)) pos hnull
    exact hss.bind fun v hv => keeps_pure (Value.plain_arrived_of_fits hv)
  | block pos ss =>
    have hin := returnsInPlace_block.1 hn
    exact keeps_runStatements (fun s hs => h s i (returnsInPlace_of_mem hin hs)) pos hnull
  | statement _ e => exact h e i (returnsInPlace_statement.1 hn)
  | binding _ name e =>
    obtain ⟨hasked, -, he⟩ := returnsInPlace_binding.1 hn
    refine h.checked i he hasked fun v hv => ?_
    exact (keeps_bindName i name hv).bind fun _ _ => keeps_pure hv
  | returning _ e =>
    obtain ⟨hasked, he⟩ := returnsInPlace_returning.1 hn
    exact h.checked i he hasked fun v hv => keeps_pure hv
  | integer | boolean | string => exact keeps_pure rfl
  | function _ params body => exact keeps_pure (returnsInPlace_function.1 hn).2
  | identifier _ text => exact keeps_evalName i text
  | unary _ op e =>
    obtain ⟨hasked, he⟩ := returnsInPlace_unary.1 hn
    refine h.checked i he hasked fun v hv => ?_
    exact keeps_pure (Value.plain_of_isResult (Value.isResult_unary op v))
  | binary _ l op r =>
    obtain ⟨⟨haskedl, haskedr⟩, hl, hr⟩ := returnsInPlace_binary.1 hn
    refine h.checked i hl haskedl fun lv _ => h.checked i hr haskedr fun rv _ => ?_
    exact keeps_pure (Value.plain_of_isResult (Value.isResult_binary op lv rv))
  | conditional _ c t e =>
    obtain ⟨hasked, hc, ht, he⟩ := returnsInPlace_conditional.1 hn
    refine h.checked i hc hasked fun v _ => ?_
    by_cases htruthy : v.truthy = true
    · simp only [if_pos htruthy]
      refine (h t i ht).mono fun v hv => Value.fits_of_returns (fun hreturns => ?_) hv
      simp [returns, hreturns]
    · simp only [if_neg htruthy]
      cases e with
      | some e =>
        refine (h e i he).mono fun v hv => Value.fits_of_returns (fun hreturns => ?_) hv
        simp [returns, returnsIn, hreturns]
      | none => exact keeps_pure (Value.fits_of_plain rfl)
  | call _ f args =>
    obtain ⟨⟨haskedf, hasked⟩, hf, hin⟩ := returnsInPlace_call.1 hn
    have hargs := keeps_evalArguments fun a ha =>
      h.asked i (returnsInPlace_of_mem hin ha) (hasked a ha)
    refine h.checked i hf haskedf fun fv hfv => hargs.bind ?_
    rintro (fault | vs) hvs
    · exact keeps_pure rfl
    · exact keeps_applyWith h hfv (hvs vs rfl)
  | bare pos => exact keeps_throw _

end

/-- **Scopes stay plain, and so is what is asked for**, by induction on the room for active
nodes. -/
theorem keeps_evalNode (maxDepth budget : Nat) : KeepsTrees (evalNode maxDepth budget) := by
  induction budget with
  | zero => exact fun n i _ => keeps_pure (Value.fits_of_plain rfl)
  | succ budget ih => exact fun n i hn => (keeps_evalWith ih n i hn).nested

/-! ## The points of a run -/

section

variable {maxDepth : Nat} {m m' : Machine}

theorem Keeps.heap {α : Type} {post : α → Prop} {act : Eval α} {a : α} (h : Keeps post act)
    (hm : m.heap.Binds Value.plain) (hrun : act m = (.ok a, m')) :
    m'.heap.Binds Value.plain ∧ post a := by
  have hkeeps := h m hm
  rw [hrun] at hkeeps
  exact ⟨hkeeps.1, hkeeps.2 a rfl⟩

/-- The trees of a list with every `return` in place are come to in plain scopes. -/
theorem Comes.keeps {stop : Value → Bool} {eval : Node → ScopeId → Eval Value}
    (h : KeepsTrees eval) {i : ScopeId} {es : List Node} {e : Node}
    (hcomes : Comes stop (eval · i) es m e m') (hes : everyOf asksInPlace es)
    (hm : m.heap.Binds Value.plain) : e.returnsInPlace ∧ m'.heap.Binds Value.plain := by
  induction hcomes with
  | here => exact ⟨returnsInPlace_of_mem hes List.mem_cons_self, hm⟩
  | later hrun _ _ ih =>
    have hfirst := returnsInPlace_of_mem hes List.mem_cons_self
    simp only [everyOf, Bool.and_eq_true] at hes
    exact ih hes.2 ((h _ i hfirst).heap hm hrun).1

/-- A call of a tree with every `return` in place is one of such a tree, in plain scopes. -/
theorem Calls.keeps {eval : Node → ScopeId → Eval Value} (h : KeepsTrees eval) {n n' : Node}
    {i i' : ScopeId} (hcalls : Calls maxDepth eval n i m n' i' m') (hn : n.returnsInPlace)
    (hm : m.heap.Binds Value.plain) : n'.returnsInPlace ∧ m'.heap.Binds Value.plain := by
  cases hcalls with
  | program hcomes => exact hcomes.keeps h (returnsInPlace_program.1 hn) hm
  | block hcomes => exact hcomes.keeps h (returnsInPlace_block.1 hn) hm
  | statement => exact ⟨returnsInPlace_statement.1 hn, hm⟩
  | binding => exact ⟨(returnsInPlace_binding.1 hn).2.2, hm⟩
  | returning => exact ⟨(returnsInPlace_returning.1 hn).2, hm⟩
  | unary => exact ⟨(returnsInPlace_unary.1 hn).2, hm⟩
  | left => exact ⟨(returnsInPlace_binary.1 hn).2.1, hm⟩
  | right hl =>
    obtain ⟨-, hleft, hright⟩ := returnsInPlace_binary.1 hn
    exact ⟨hright, ((h _ i hleft).heap hm hl).1⟩
  | condition => exact ⟨(returnsInPlace_conditional.1 hn).2.1, hm⟩
  | consequence hrun =>
    obtain ⟨-, hc, ht, -⟩ := returnsInPlace_conditional.1 hn
    exact ⟨ht, ((h _ i hc).heap hm hrun).1⟩
  | alternative hrun =>
    obtain ⟨-, hc, -, he⟩ := returnsInPlace_conditional.1 hn
    exact ⟨he, ((h _ i hc).heap hm hrun).1⟩
  | callee => exact ⟨(returnsInPlace_call.1 hn).2.1, hm⟩
  | argument hrun _ hcomes =>
    obtain ⟨-, hf, hin⟩ := returnsInPlace_call.1 hn
    exact hcomes.keeps h hin ((h _ i hf).heap hm hrun).1
  | body hrun hargs =>
    obtain ⟨⟨haskedf, hasked⟩, hf, hin⟩ := returnsInPlace_call.1 hn
    -- the function is plain, so that every `return` in its body is in place
    obtain ⟨hm₁, hbody⟩ := (h.asked i hf haskedf).heap hm hrun
    have hplain := keeps_evalArguments fun a ha =>
      h.asked i (returnsInPlace_of_mem hin ha) (hasked a ha)
    obtain ⟨hm₂, hvs⟩ := hplain.heap hm₁ hargs
    exact ⟨hbody, (hm₂.addInside _).bindAll _ (forall_mem_bindings (hvs _ rfl))⟩

theorem Visits.keeps {b b' : Nat} {n n' : Node} {i i' : ScopeId}
    (hvisits : Visits maxDepth b n i m b' n' i' m') (hn : n.returnsInPlace)
    (hm : m.heap.Binds Value.plain) : n'.returnsInPlace ∧ m'.heap.Binds Value.plain := by
  induction hvisits with
  | here => exact ⟨hn, hm⟩
  | inside hcalls _ ih =>
    obtain ⟨hn₁, hm₁⟩ := hcalls.keeps (keeps_evalNode maxDepth _) hn hm
    exact ih hn₁ hm₁

end

/-! ## Whole runs -/

/-- No scope binds a returning value. -/
def Unwrapped (h : Heap) : Prop := ∀ j, ∀ b ∈ (h.scope j).bindings, b.2.type ≠ .returning

theorem unwrapped_of_binds_plain {h : Heap} (hh : h.Binds Value.plain) : Unwrapped h :=
  fun j b hb => Value.type_ne_returning_of_plain (hh j b hb)

theorem Session.binds_plain {m : Machine} (hm : Session (fun n => n.returnsInPlace) m) :
    m.heap.Binds Value.plain := by
  induction hm with
  | start => exact Heap.Binds.empty _
  | addOutermost _ ih => exact ih.addOutermost
  | addInside i _ ih => exact ih.addInside i
  | flush _ ih => exact ih
  | @run m maxDepth n i _ hn ih =>
    exact (keeps_evalNode maxDepth (nestingLimit maxDepth - m.nesting) n i hn m ih).1

theorem returns_eq_false_of_program_or_call {n : Node} (h : n.isProgram ∨ n.isCall) :
    n.returns = false := by
  cases n <;> simp_all [isProgram, isCall, returns]

/-- **What is returned stays in its call**, as long as every `return` is in place. In runs of such
trees, after earlier runs of such trees, no scope binds a returning value when a tree is begun or
left, whichever of those that the run comes to, and no program and no call among them comes to a
returning value. -/
theorem evaluate_unwraps {m : Machine} (hm : Session (fun n => n.returnsInPlace) m)
    (maxDepth : Nat) {n : Node} (hn : n.returnsInPlace) (i : ScopeId) :
    (n.isProgram → ∀ v, (evaluate maxDepth n i m).1 = .ok v → v.type ≠ .returning) ∧
      ∀ b n' i' m', Visits maxDepth (nestingLimit maxDepth - m.nesting) n i m b n' i' m' →
        Unwrapped m'.heap ∧ Unwrapped (evalNode maxDepth b n' i' m').2.heap ∧
        (n'.isProgram ∨ n'.isCall → ∀ v, (evalNode maxDepth b n' i' m').1 = .ok v →
          v.type ≠ .returning) := by
  have hpoint : ∀ b n' i' m',
      Visits maxDepth (nestingLimit maxDepth - m.nesting) n i m b n' i' m' →
        Unwrapped m'.heap ∧ Unwrapped (evalNode maxDepth b n' i' m').2.heap ∧
        (n'.isProgram ∨ n'.isCall → ∀ v, (evalNode maxDepth b n' i' m').1 = .ok v →
          v.type ≠ .returning) := by
    intro b n' i' m' hvisits
    obtain ⟨hn', hm'⟩ := hvisits.keeps hn hm.binds_plain
    obtain ⟨hafter, hfits⟩ := keeps_evalNode maxDepth b n' i' hn' m' hm'
    refine ⟨unwrapped_of_binds_plain hm', unwrapped_of_binds_plain hafter, ?_⟩
    intro hwhole v hv
    have hreturns := returns_eq_false_of_program_or_call hwhole
    exact Value.type_ne_returning_of_plain (Value.plain_of_fits hreturns (hfits v hv))
  refine ⟨fun hprogram v hv => ?_, hpoint⟩
  exact (hpoint _ n i m .here).2.2 (.inl hprogram) v hv

/-- A function with an early exit, and a call of it that takes the exit. -/
def earlyExit : Node :=
  (Parsed.ofSource "let f = fn(x) { if (x) { return 1 }; 2 }; f(true)" {}).program

theorem evaluate_earlyExit :
    earlyExit.returnsInPlace ∧
      (∀ v, (evaluate 200 earlyExit 0 .initial).1 = .ok v → v.type ≠ .returning) ∧
      Unwrapped (evaluate 200 earlyExit 0 .initial).2.heap := by
  have hm : Session (fun n => n.returnsInPlace) .initial := Session.start.addOutermost
  obtain ⟨hn, hwhole⟩ : earlyExit.returnsInPlace ∧ earlyExit.isProgram := by
    rw [earlyExit, Parsed.ofSource, Token.scan_of_toList String.toList_ofList]
    decide +kernel
  obtain ⟨hprogram, hpoint⟩ := evaluate_unwraps hm 200 hn 0
  exact ⟨hn, hprogram hwhole, (hpoint _ _ _ _ .here).2.1⟩

/-- The machine that a run of a text leaves, and the sort of its value. -/
def outcome (source : String) : Option ValueType × Machine :=
  let (result, m) := evaluate 200 (Parsed.ofSource source {}).program 0 .initial
  (result.toOption.map Value.type, m)

/-- **A returning value escapes from a conditional that stands for a value.** Three texts without
diagnostics: a program comes to a returning value, a name is bound to one, and a call of a function
comes to one. -/
theorem wrapper_escapes :
    (∀ source ∈ ["return if (true) { return 4 }", "let x = if (true) { return 5 }; 9",
        "let x = fn() { return if (true) { return 6 } }()"],
      (Parsed.ofSource source {}).errors = []) ∧
      (outcome "return if (true) { return 4 }").1 = some .returning ∧
      ((outcome "let x = if (true) { return 5 }; 9").2.heap.find? 0 "x").map Value.type =
        some .returning ∧
      ((outcome "let x = fn() { return if (true) { return 6 } }()").2.heap.find? 0 "x").map
        Value.type = some .returning := by
  refine ⟨?_, ?_, ?_, ?_⟩
  · refine List.forall_mem_cons.2 ⟨?_, List.forall_mem_cons.2 ⟨?_, List.forall_mem_singleton.2 ?_⟩⟩
    all_goals
      rw [Parsed.ofSource, Token.scan_of_toList String.toList_ofList]
      decide +kernel
  all_goals
    rw [outcome, Parsed.ofSource, Token.scan_of_toList String.toList_ofList]
    decide +kernel

end Eval

end Scriptlet
