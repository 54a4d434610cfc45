import Scriptlet.Proofs.Eval.Jump
import Scriptlet.Proofs.Eval.Returns

/-!
# A return is an early exit

The evaluator hands a returned value on from statement to statement, and takes it apart where its
call or its program ends. As long as every `return` is in place, that is the same as to jump there
at once: the two evaluators give the same value, print the same and leave the same scopes.

* `Value.split`: a value on its way back is a jump, any other is a value.
* `Mirrors`: one computation of the evaluator does what one that jumps does.
* `Mirrors.bind`: what comes after a jump is what hands the returned value on.
* `mirrors_evalNode`: the two evaluators agree on every tree with every `return` in place.
* `evaluate_eq_jump`: the main statement, for programs.
-/

namespace Scriptlet

open Syntax (Node)

namespace Value

/-- What a value of the evaluator is to one that jumps: if it is on its way back, a jump. -/
def split : Value → Except Value Value
  | .returning v => .error v
  | v => .ok v

variable {v w : Value}

theorem split_of_plain (h : v.plain) : v.split = .ok v := by
  cases v with
  | returning v => simp [plain] at h
  | _ => rfl

theorem arrived_of_plain (h : v.plain) : v.arrived = v := by
  cases v with
  | returning v => simp [plain] at h
  | _ => rfl

theorem eq_of_split_error (h : v.split = .error w) : v = .returning w := by
  cases v with
  | returning v =>
    cases h
    rfl
  | _ => cases h

/-- A value that is no jump ends statements only if it is a fault. -/
theorem eq_of_split_ok (h : v.split = .ok w) : w = v ∧ v.stops = v.isFault := by
  cases v with
  | returning v => cases h
  | _ =>
    cases h
    exact ⟨rfl, rfl⟩

end Value

namespace Eval

open Syntax.Node

/-! ## Two computations that agree -/

/-- While all scopes bind plain values, `walk` does what `act` does; `shown` tells whether what `act`
gives is a result of `walk` or a jump. -/
def Mirrors {α β : Type} (shown : α → Except Value β) (act : Eval α) (walk : Jump β) : Prop :=
  ∀ m : Machine, m.heap.Binds Value.plain → walk m = ((act m).1.map shown, (act m).2)

section

variable {α β γ δ : Type} {shown : α → Except Value β} {shown' : γ → Except Value δ}
  {post : α → Prop}

theorem mirrors_pure {a : α} {b : β} (h : shown a = .ok b) :
    Mirrors shown (pure a) (pure b) := by
  intro m _
  have hact : ((pure a : Eval α) m).1.map shown = .ok (shown a) := rfl
  rw [hact, h]
  rfl

theorem mirrors_leave {a : α} {v : Value} (h : shown a = .error v) :
    Mirrors shown (pure a) (Jump.leave v) := by
  intro m _
  have hact : ((pure a : Eval α) m).1.map shown = .ok (shown a) := rfl
  rw [hact, h]
  rfl

theorem lift_run (act : Eval α) (m : Machine) :
    (liftM act : Jump α) m = ((act m).1.map Except.ok, (act m).2) := by
  have hlift : (liftM act : Jump α) m = (act >>= fun a => pure (Except.ok a)) m := rfl
  rw [hlift, bind_run]
  rcases act m with ⟨_ | _, _⟩ <;> rfl

theorem mirrors_shared (act : Eval α) : Mirrors Except.ok act (liftM act) :=
  fun m _ => lift_run act m

/-- A computation that gives plain values never jumps. -/
theorem mirrors_lift {act act' : Eval Value} (hkeeps : Keeps (fun v => v.plain) act)
    (heq : ∀ m : Machine, m.heap.Binds Value.plain → act' m = act m) :
    Mirrors Value.split act (liftM act') := by
  intro m hm
  rw [lift_run, heq m hm]
  have hplain := (hkeeps m hm).2
  generalize act m = r at hplain
  obtain ⟨e | v, m₁⟩ := r
  · rfl
  · have hsplit := Value.split_of_plain (hplain v rfl)
    dsimp only [Except.map]
    rw [hsplit]

/-- A computation goes on after a result, and not after a jump. -/
theorem jump_bind_run (walk : Jump α) (l : α → Jump β) (m : Machine) :
    (walk >>= l) m = match walk m with
      | (.ok (.ok a), m') => l a m'
      | (.ok (.error v), m') => Jump.leave v m'
      | (.error e, m') => (.error e, m') := by
  have hrun : (walk >>= l) m = (walk.run >>= ExceptT.bindCont l) m := rfl
  have hwalk : walk.run m = walk m := rfl
  rw [hrun, bind_run, hwalk]
  rcases walk m with ⟨_ | _ | _, _⟩ <;> rfl

/-- **What comes after a jump is what hands the returned value on.** -/
theorem Mirrors.bind {act : Eval α} {walk : Jump β} {k : α → Eval γ} {l : β → Jump δ}
    (h : Mirrors shown act walk) (hkeeps : Keeps post act)
    (hjump : ∀ a v, post a → shown a = .error v → Mirrors shown' (k a) (Jump.leave v))
    (hnext : ∀ a b, post a → shown a = .ok b → Mirrors shown' (k a) (l b)) :
    Mirrors shown' (act >>= k) (walk >>= l) := by
  intro m hm
  obtain ⟨hheap, hpost⟩ := hkeeps m hm
  rw [jump_bind_run, bind_run, h m hm]
  generalize act m = r at hheap hpost
  obtain ⟨e | a, m₁⟩ := r
  · rfl
  · dsimp only [Except.map]
    cases hshown : shown a with
    | ok b => exact hnext a b (hpost a rfl) hshown m₁ hheap
    | error v => exact hjump a v (hpost a rfl) hshown m₁ hheap

/-- A tree that is asked for a value does not jump. -/
theorem Mirrors.asked {act : Eval Value} {walk : Jump Value} {k : Value → Eval γ}
    {l : Value → Jump δ} (h : Mirrors Value.split act walk)
    (hkeeps : Keeps (fun v => v.plain) act)
    (hnext : ∀ v, v.plain → Mirrors shown' (k v) (l v)) :
    Mirrors shown' (act >>= k) (walk >>= l) := by
  refine h.bind hkeeps ?_ ?_
  · intro v w hv hsplit
    rw [Value.split_of_plain hv] at hsplit
    cases hsplit
  · intro v w hv hsplit
    rw [(Value.eq_of_split_ok hsplit).1]
    exact hnext v hv

/-- The check for a fault that stands after a subtree on both sides. -/
theorem Mirrors.checked {act : Eval Value} {walk : Jump Value} {k : Value → Eval Value}
    {l : Value → Jump Value} (h : Mirrors Value.split act walk)
    (hkeeps : Keeps (fun v => v.plain) act)
    (hnext : ∀ v, v.plain → Mirrors Value.split (k v) (l v)) :
    Mirrors Value.split (act >>= fun v => if v.isFault then pure v else k v)
      (walk >>= fun v => if v.isFault then pure v else l v) := by
  refine h.asked hkeeps fun v hv => ?_
  by_cases hf : v.isFault = true
  · simp only [if_pos hf]
    exact mirrors_pure (Value.split_of_plain hv)
  · simp only [if_neg hf]
    exact hnext v hv

theorem Mirrors.nested {act : Eval α} {walk : Jump β} (h : Mirrors shown act walk) :
    Mirrors shown (nested act) (Jump.nested walk) := by
  intro m hm
  have hin : walk.run _ = _ := h { m with nesting := m.nesting + 1 } hm
  unfold Jump.nested Eval.nested ExceptT.mk
  dsimp only
  rw [hin]
  rfl

theorem called_bind_pure (act : Eval α) (f : α → β) (m : Machine) :
    called (act >>= fun a => pure (f a)) m = (called act >>= fun a => pure (f a)) m := by
  rw [bind_run]
  unfold called ExceptT.mk
  dsimp only
  rw [bind_run]
  rcases act { m with depth := m.depth + 1 } with ⟨_ | _, _⟩ <;> rfl

/-- What returns and what jumps arrive with the same value. -/
theorem Mirrors.landing {act : Eval Value} {walk : Jump Value} (h : Mirrors Value.split act walk)
    {m : Machine} (hm : m.heap.Binds Value.plain) :
    Jump.landing walk m = (act >>= fun v => pure v.arrived) m := by
  have hwalk : walk.run m = _ := h m hm
  unfold Jump.landing
  rw [bind_run, bind_run, hwalk]
  rcases act m with ⟨e | v, m₁⟩
  · rfl
  · cases v <;> rfl

end

/-! ## The parts of the evaluator -/

theorem mirrors_runStatements {eval : Node → Eval Value} {walk : Node → Jump Value}
    {ss : List Node} (h : ∀ s ∈ ss, Mirrors Value.split (eval s) (walk s))
    (hkeeps : ∀ s ∈ ss, Keeps (fun v => v.fits s) (eval s)) {last : Value}
    (hlast : last.split = .ok last) :
    Mirrors Value.split (runStatements eval last ss) (Jump.statements walk last ss) := by
  induction ss generalizing last with
  | nil => exact mirrors_pure hlast
  | cons s ss ih =>
    refine (h s (by simp)).bind (hkeeps s (by simp)) ?_ ?_
    · -- a returned value ends the statements here, and the jump went over them
      intro v w _ hsplit
      rw [Value.eq_of_split_error hsplit]
      exact mirrors_leave rfl
    · intro v w _ hsplit
      obtain ⟨rfl, hstops⟩ := Value.eq_of_split_ok hsplit
      rw [hstops]
      by_cases hf : w.isFault = true
      · simp only [if_pos hf]
        exact mirrors_pure hsplit
      · simp only [if_neg hf]
        exact ih (fun s' hs' => h s' (by simp [hs'])) (fun s' hs' => hkeeps s' (by simp [hs']))
          hsplit

theorem mirrors_evalArguments {eval : Node → Eval Value} {walk : Node → Jump Value}
    {es : List Node} (h : ∀ e ∈ es, Mirrors Value.split (eval e) (walk e))
    (hkeeps : ∀ e ∈ es, Keeps (fun v => v.plain) (eval e)) :
    Mirrors Except.ok (evalArguments eval es) (Jump.arguments walk es) := by
  induction es with
  | nil => exact mirrors_pure rfl
  | cons e es ih =>
    have hrest := ih (fun e' he' => h e' (by simp [he'])) fun e' he' => hkeeps e' (by simp [he'])
    have hplain := keeps_evalArguments fun e' he' => hkeeps e' (List.mem_cons_of_mem e he')
    refine (h e (by simp)).asked (hkeeps e (by simp)) fun v hv => ?_
    cases v with
    | fault f => exact mirrors_pure rfl
    | _ =>
      refine hrest.bind hplain (fun _ _ _ hjump => by cases hjump) ?_
      rintro (f | vs) _ - ⟨⟩
      · exact mirrors_pure rfl
      · exact mirrors_pure rfl

section

variable {maxDepth : Nat} {eval : Node → ScopeId → Eval Value} {walk : Node → ScopeId → Jump Value}
  (hkeeps : KeepsTrees eval)
  (h : ∀ n i, n.returnsInPlace → Mirrors Value.split (eval n i) (walk n i))

include h

/-- **A call is where jumps out of its body arrive.** -/
theorem apply_eq_applyWith {f : Value} (hf : f.plain) {args : List Value}
    (hargs : ∀ v ∈ args, v.plain) {m : Machine} (hm : m.heap.Binds Value.plain) :
    Jump.apply maxDepth walk f args m = applyWith maxDepth eval f args m := by
  cases f with
  | function params body scope =>
    unfold Jump.apply applyWith
    by_cases harity : args.length ≠ params.length
    · simp only [if_pos harity]
    · simp only [if_neg harity]
      rw [get_bind_run, get_bind_run]
      by_cases hdepth : maxDepth ≤ m.depth
      · simp only [if_pos hdepth]
      · simp only [if_neg hdepth]
        -- the body runs in the machine that the call made for it
        have hin : (m.entered scope params args).heap.Binds Value.plain :=
          (hm.addInside scope).bindAll m.heap.nextId (forall_mem_bindings hargs)
        have hbody := (h body m.heap.nextId hf).landing hin
        have henclose : enclose scope (bindings params args) m =
          (.ok m.heap.nextId, { m with heap := (m.entered scope params args).heap }) := rfl
        rw [bind_run, bind_run, henclose]
        dsimp only
        rw [called_congr hbody, called_bind_pure]
  | _ => rfl

include hkeeps

/-- One node: one case for each kind. What is asked for a value does not jump, and what may jump is
handed on by what stands around it. -/
theorem mirrors_evalWith {n : Node} (i : ScopeId) (hn : n.returnsInPlace) :
    Mirrors Value.split (evalWith maxDepth eval n i) (Jump.tree maxDepth walk n i) := by
  have hchecked : ∀ {e : Node} {k : Value → Eval Value} {l : Value → Jump Value},
      e.returnsInPlace → e.returns = false →
      (∀ v, v.plain → Mirrors Value.split (k v) (l v)) →
      Mirrors Value.split (eval e i >>= fun v => if v.isFault then pure v else k v)
        (walk e i >>= fun v => if v.isFault then pure v else l v) :=
    fun he hasked hnext => (h _ i he).checked (hkeeps.asked i he hasked) hnext
  have hstatements : ∀ {ss : List Node}, everyOf asksInPlace ss →
      Mirrors Value.split (runStatements (eval · i) .null ss)
        (Jump.statements (walk · i) .null ss) :=
    fun hss => mirrors_runStatements (fun s hs => h s i (returnsInPlace_of_mem hss hs))
      (fun s hs => hkeeps s i (returnsInPlace_of_mem hss hs)) rfl
  cases n with
  | program pos ss =>
    have hss := hstatements (returnsInPlace_program.1 hn)
    exact mirrors_lift (keeps_evalWith hkeeps _ i hn) fun m hm => hss.landing hm
  | block _ ss => exact hstatements (returnsInPlace_block.1 hn)
  | statement _ e => exact h e i (returnsInPlace_statement.1 hn)
  | binding _ name e =>
    obtain ⟨hasked, -, he⟩ := returnsInPlace_binding.1 hn
    refine hchecked he hasked fun v hv => ?_
    refine (mirrors_shared _).bind (keeps_bindName i name hv) (fun _ _ _ hjump => by cases hjump) ?_
    exact fun _ _ _ _ => mirrors_pure (Value.split_of_plain hv)
  | returning _ e =>
    obtain ⟨hasked, he⟩ := returnsInPlace_returning.1 hn
    exact hchecked he hasked fun v hv => mirrors_leave rfl
  | integer | boolean | string | function => exact mirrors_pure rfl
  | identifier _ text => exact mirrors_lift (keeps_evalName i text) fun _ _ => rfl
  | unary _ op e =>
    obtain ⟨hasked, he⟩ := returnsInPlace_unary.1 hn
    refine hchecked he hasked fun v hv => mirrors_pure ?_
    exact Value.split_of_plain (Value.plain_of_isResult (Value.isResult_unary op v))
  | binary _ l op r =>
    obtain ⟨⟨haskedl, haskedr⟩, hl, hr⟩ := returnsInPlace_binary.1 hn
    refine hchecked hl haskedl fun lv _ => hchecked hr haskedr fun rv _ => mirrors_pure ?_
    exact Value.split_of_plain (Value.plain_of_isResult (Value.isResult_binary op lv rv))
  | conditional _ c t e =>
    obtain ⟨hasked, hc, ht, he⟩ := returnsInPlace_conditional.1 hn
    refine hchecked hc hasked fun v _ => ?_
    by_cases htruthy : v.truthy = true
    · simp only [if_pos htruthy]
      exact h t i ht
    · simp only [if_neg htruthy]
      cases e with
      | some e => exact h e i he
      | none => exact mirrors_pure rfl
  | call _ f args =>
    obtain ⟨⟨haskedf, hasked⟩, hf, hin⟩ := returnsInPlace_call.1 hn
    have hplain : ∀ a ∈ args, Keeps (fun v => v.plain) (eval a i) :=
      fun a ha => hkeeps.asked i (returnsInPlace_of_mem hin ha) (hasked a ha)
    have hargs := mirrors_evalArguments
      (fun a ha => h a i (returnsInPlace_of_mem hin ha)) hplain
    refine hchecked hf haskedf fun fv hfv => ?_
    refine hargs.bind (keeps_evalArguments hplain) (fun _ _ _ hjump => by cases hjump) ?_
    rintro (fault | vs) _ hvs ⟨⟩
    · exact mirrors_pure rfl
    · exact mirrors_lift (keeps_applyWith hkeeps hfv (hvs vs rfl)) fun m hm =>
        apply_eq_applyWith h hfv (hvs vs rfl) hm
  | bare pos => exact fun _ _ => rfl

end

/-- **The two evaluators agree on every tree with every `return` in place**, by induction on the room
for active nodes. -/
theorem mirrors_evalNode (maxDepth budget : Nat) : ∀ n i, n.returnsInPlace →
    Mirrors Value.split (evalNode maxDepth budget n i) (Jump.node maxDepth budget n i) := by
  induction budget with
  | zero => exact fun _ _ _ => mirrors_pure rfl
  | succ budget ih =>
    intro n i hn
    exact (mirrors_evalWith (keeps_evalNode maxDepth budget) ih i hn).nested

/-! ## Whole runs -/

/-- **A return is an early exit.** A program with every `return` in place, run after such programs,
comes to the same value as if every `return` jumped out of its call or of the program; it prints the
same and leaves the same scopes. -/
theorem evaluate_eq_jump {m : Machine} (hm : Session (fun n => n.returnsInPlace) m)
    (maxDepth : Nat) {n : Node} (hprogram : n.isProgram) (hn : n.returnsInPlace) (i : ScopeId) :
    evaluate maxDepth n i m = Jump.evaluate maxDepth n i m := by
  have hplain := hm.binds_plain
  have hland := (mirrors_evalNode maxDepth (nestingLimit maxDepth - m.nesting) n i hn).landing hplain
  have hfits := (keeps_evalNode maxDepth (nestingLimit maxDepth - m.nesting) n i hn m hplain).2
  have hreturns := returns_eq_false_of_program_or_call (.inl hprogram)
  unfold evaluate Jump.evaluate
  rw [get_bind_run, get_bind_run, hland, bind_run]
  generalize evalNode maxDepth (nestingLimit maxDepth - m.nesting) n i m = r at hfits
  obtain ⟨e | v, m₁⟩ := r
  · rfl
  · -- a program comes to a value that is not on its way back
    have harrive := Value.arrived_of_plain (Value.plain_of_fits hreturns (hfits v rfl))
    dsimp only
    rw [harrive]
    rfl

/-- A function that returns out of a conditional in a conditional, and a program that returns what a
call of it gives before its last statement. -/
def nestedExits : Node :=
  (Parsed.ofSource
    "let f = fn(n) { if (n < 9) { if (0 < n) { puts(n); return n }; puts(0) }; 7 }
     if (f(3) == 3) { return f(9) }
     puts(2)" {}).program

theorem evaluate_nestedExits :
    nestedExits.returnsInPlace ∧
      (evaluate 200 nestedExits 0 .initial).2.printed.map Line.text = ["3"] ∧
      evaluate 200 nestedExits 0 .initial = Jump.evaluate 200 nestedExits 0 .initial := by
  have hm : Session (fun n => n.returnsInPlace) .initial := Session.start.addOutermost
  obtain ⟨hprogram, hn, hprinted⟩ : nestedExits.isProgram ∧ nestedExits.returnsInPlace ∧
      (evaluate 200 nestedExits 0 .initial).2.printed.map Line.text = ["3"] := by
    rw [nestedExits, Parsed.ofSource, Token.scan_of_toList String.toList_ofList]
    decide +kernel
  exact ⟨hn, hprinted, evaluate_eq_jump hm 200 hprogram hn 0⟩

end Eval

end Scriptlet
