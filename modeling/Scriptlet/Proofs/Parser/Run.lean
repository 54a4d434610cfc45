import Scriptlet.Parser.Program
import Scriptlet.Proofs.Run

/-!
# Running a parser

What every parser does to the state, whether it gives a result or fails: it moves over tokens,
reports diagnostics and counts, and nothing else. Every invariant of a parse follows from that.

* `Moves`: the states that a parse can come to from a given one.
* `Moving`: a parser that only moves; all of them are, if the parser of expressions is.
* `gives_bind`, `yields_bind`: a sequence of parsers gives a result, or one without a diagnostic,
  iff each of them does.
-/

namespace Scriptlet.Parser

open Syntax (Node)
open Token (Kind)

variable {α β : Type} {p : Parser α} {f : α → Parser β} {s s₁ s' : State}

/-! ## The states ahead of a state -/

/-- The states that a parse can come to from `s`: by moving to the next token, by reporting a
diagnostic, or by changing what it counts and records beside these. -/
inductive Moves (s : State) : State → Prop
  | refl : Moves s s
  | advance {s' : State} : Moves s s' → Moves s s'.advance
  | report {s' : State} (d : Diagnostic) : Moves s s' → Moves s (s'.report d)
  | count {s' : State} (nesting traceLevel : Nat) (trace : List TraceLine) :
      Moves s s' → Moves s { s' with nesting, traceLevel, trace }

namespace Moves

theorem trans (h : Moves s s₁) (h' : Moves s₁ s') : Moves s s' := by
  induction h' with
  | refl => exact h
  | advance _ ih => exact ih.advance
  | report d _ ih => exact ih.report d
  | count n l t _ ih => exact ih.count n l t

/-- **Tokens are only used up.** -/
theorem rest_suffix (h : Moves s s') : s'.rest <:+ s.rest := by
  induction h with
  | refl => exact List.suffix_rfl
  | advance _ ih => exact (List.tail_suffix _).trans ih
  | report _ _ ih => exact ih
  | count _ _ _ _ ih => exact ih

theorem length_rest_le (h : Moves s s') : s'.rest.length ≤ s.rest.length :=
  h.rest_suffix.length_le

/-- **No diagnostic is taken back.** -/
theorem errors_grow (h : Moves s s') : s.errors <+: s'.errors := by
  induction h with
  | refl => exact List.prefix_rfl
  | advance _ ih => exact ih
  | report d _ ih => exact ih.trans (List.prefix_append _ _)
  | count _ _ _ _ ih => exact ih

theorem skipSemicolons (h : Moves s s') : Moves s s'.skipSemicolons := by
  fun_induction State.skipSemicolons s' with
  | case1 s' _ ih => exact ih h.advance
  | case2 s' _ => exact h

theorem synchronize (depth : Int) (h : Moves s s') : Moves s (s'.synchronize depth) := by
  fun_induction State.synchronize depth s' with
  | case1 s' _ => exact h
  | case2 s' _ ih => exact ih h.advance

end Moves

/-! ## Parsers that only move -/

/-- A parser that only moves: wherever it starts, it ends in a state ahead, whether it gives a
result or fails. -/
class Moving (p : Parser α) : Prop where
  moves : ∀ s, Moves s (p s).2

instance (a : α) : Moving (pure a) := ⟨fun _ => .refl⟩

instance (d : Diagnostic) : Moving (throw d : Parser α) := ⟨fun _ => .refl⟩

instance : Moving (get : Parser State) := ⟨fun _ => .refl⟩

instance : Moving cur := ⟨fun _ => .refl⟩

instance : Moving peek := ⟨fun _ => .refl⟩

instance : Moving advance := ⟨fun _ => .advance .refl⟩

instance : Moving (modify State.skipSemicolons : Parser Unit) :=
  ⟨fun _ => Moves.refl.skipSemicolons⟩

theorem Moving.bind (hp : Moving p) (hf : ∀ a, Moving (f a)) : Moving (p >>= f) := by
  constructor
  intro s
  have h := hp.moves s
  rw [bind_run]
  split
  · rename_i a s' heq
    rw [heq] at h
    exact h.trans ((hf a).moves s')
  · rename_i d s' heq
    rw [heq] at h
    exact h

instance [hp : Moving p] [hf : ∀ a, Moving (f a)] : Moving (p >>= f) := hp.bind hf

instance {c : Prop} [Decidable c] {q : Parser α} [hp : Moving p] [hq : Moving q] :
    Moving (if c then p else q) := by
  split
  · exact hp
  · exact hq

instance (kind : Kind) : Moving (expect kind) := by
  unfold expect
  infer_instance

instance [hp : Moving p] : Moving (nested p) := by
  constructor
  intro s
  have h := hp.moves { s with nesting := s.nesting + 1 }
  exact ((Moves.refl.count _ _ _).trans h).count _ _ _

instance (cfg : Config) (rule : Rule) [hp : Moving p] : Moving (traced cfg rule p) := by
  unfold traced
  split
  · constructor
    intro s
    exact ((Moves.refl.count _ _ _).trans (hp.moves _)).count _ _ _
  · exact hp

theorem recovering_run (p : Parser α) (s : State) :
    recovering p s = match p s with
      | (.ok a, s') => (.ok (some a), s')
      | (.error d, s') => (.ok none, (s'.report d).synchronize s.braceDepth) := rfl

instance [hp : Moving p] : Moving (recovering p) := by
  constructor
  intro s
  have h := hp.moves s
  rw [recovering_run]
  split
  · rename_i a s' heq
    rw [heq] at h
    exact h
  · rename_i d s' heq
    rw [heq] at h
    exact (h.report d).synchronize _

section

variable {step : α → Parser (Option α)} [hs : ∀ a, Moving (step a)]

theorem moving_iterateUpTo : ∀ bound a, Moving (iterateUpTo step bound a) := by
  intro bound
  induction bound with
  | zero => intro a; exact inferInstanceAs (Moving (pure a))
  | succ bound ih =>
    intro a
    show Moving (step a >>= _)
    refine (hs a).bind fun o => ?_
    cases o with
    | none => exact inferInstanceAs (Moving (pure a))
    | some a' => exact ih a'

instance (a : α) : Moving (iterate step a) := by
  have (n : Nat) : Moving (iterateUpTo step n a) := moving_iterateUpTo n a
  unfold iterate
  infer_instance

end

/-! ## Results -/

/-- `p` gives `a` from `s` and ends in `s'`. -/
def Gives (p : Parser α) (s : State) (a : α) (s' : State) : Prop :=
  Eq (α := Except Diagnostic α × State) (p s) (.ok a, s')

/-- `p` gives `a` from `s`, ends in `s'` and has nothing to report on the way. -/
def Yields (p : Parser α) (s : State) (a : α) (s' : State) : Prop :=
  Gives p s a s' ∧ s'.errors = s.errors

/-- `p` fails from `s` with `d` and ends in `s'`. -/
def Fails (p : Parser α) (s : State) (d : Diagnostic) (s' : State) : Prop :=
  Eq (α := Except Diagnostic α × State) (p s) (.error d, s')

theorem Gives.moves {a : α} [hp : Moving p] (h : Gives p s a s') : Moves s s' := by
  have := hp.moves s
  rw [h] at this
  exact this

theorem Yields.moves {a : α} [Moving p] (h : Yields p s a s') : Moves s s' := h.1.moves

@[simp] theorem gives_pure {a b : α} : Gives (pure a) s b s' ↔ b = a ∧ s' = s := by
  show (Except.ok a, s) = (Except.ok b, s') ↔ _
  simp [eq_comm]

@[simp] theorem gives_throw {d : Diagnostic} {a : α} : ¬ Gives (throw d) s a s' := by
  intro h
  cases h

@[simp] theorem gives_bind {b : β} :
    Gives (p >>= f) s b s' ↔ ∃ a s₁, Gives p s a s₁ ∧ Gives (f a) s₁ b s' := by
  unfold Gives
  rw [bind_run]
  rcases p s with ⟨d | a, s₁⟩ <;> simp [and_assoc]

@[simp] theorem gives_map {g : α → β} {b : β} :
    Gives (g <$> p) s b s' ↔ ∃ a, b = g a ∧ Gives p s a s' := by
  rw [← bind_pure_comp, gives_bind]
  constructor
  · rintro ⟨a, s₁, h, h'⟩
    obtain ⟨rfl, rfl⟩ := gives_pure.1 h'
    exact ⟨a, rfl, h⟩
  · rintro ⟨a, rfl, h⟩
    exact ⟨a, s', h, gives_pure.2 ⟨rfl, rfl⟩⟩

@[simp] theorem gives_ite {c : Prop} [Decidable c] {q : Parser α} {a : α} :
    Gives (if c then p else q) s a s' ↔ if c then Gives p s a s' else Gives q s a s' := by
  split <;> rfl

@[simp] theorem gives_get {t : State} : Gives get s t s' ↔ t = s ∧ s' = s := by
  show (Except.ok s, s) = (Except.ok t, s') ↔ _
  simp [eq_comm]

@[simp] theorem gives_cur {t : Token} : Gives cur s t s' ↔ t = s.cur ∧ s' = s := by
  show (Except.ok s.cur, s) = (Except.ok t, s') ↔ _
  simp [eq_comm]

@[simp] theorem gives_peek {t : Token} : Gives peek s t s' ↔ t = s.peek ∧ s' = s := by
  show (Except.ok s.peek, s) = (Except.ok t, s') ↔ _
  simp [eq_comm]

@[simp] theorem gives_modify {u : State → State} {x : Unit} :
    Gives (modify u) s x s' ↔ s' = u s := by
  show (Except.ok (), u s) = (Except.ok x, s') ↔ _
  simp [eq_comm]

@[simp] theorem gives_advance {x : Unit} : Gives advance s x s' ↔ s' = s.advance := gives_modify

@[simp] theorem gives_expect {kind : Kind} {x : Unit} :
    Gives (expect kind) s x s' ↔ s.peek.kind = kind ∧ s' = s.advance := by
  simp [expect, and_assoc]

theorem gives_recovering_some {a : α} : Gives (recovering p) s (some a) s' ↔ Gives p s a s' := by
  unfold Gives
  rw [recovering_run]
  rcases p s with ⟨d | b, s₁⟩ <;> simp

theorem gives_recovering_none :
    Gives (recovering p) s none s' ↔
      ∃ d s₁, p s = (.error d, s₁) ∧ s' = (s₁.report d).synchronize s.braceDepth := by
  unfold Gives
  rw [recovering_run]
  rcases p s with ⟨d | b, s₁⟩
  · simp only [Prod.mk.injEq, true_and]
    constructor
    · rintro rfl
      exact ⟨d, s₁, rfl, rfl⟩
    · rintro ⟨_, _, h, rfl⟩
      cases h
      rfl
  · simp only [Prod.mk.injEq, Except.ok.injEq, reduceCtorEq, false_and, false_iff]
    rintro ⟨_, _, h, _⟩
    cases h

@[simp] theorem yields_pure {a b : α} : Yields (pure a) s b s' ↔ b = a ∧ s' = s := by
  simp +contextual [Yields, iff_def]

@[simp] theorem yields_throw {d : Diagnostic} {a : α} : ¬ Yields (throw d) s a s' := by
  simp [Yields]

/-- Diagnostics are never taken back, so a sequence that reports nothing has parts that report
nothing. -/
theorem yields_bind_of_moving {b : β} [Moving p] (hf : ∀ a, Moving (f a)) :
    Yields (p >>= f) s b s' ↔ ∃ a s₁, Yields p s a s₁ ∧ Yields (f a) s₁ b s' := by
  unfold Yields
  rw [gives_bind]
  constructor
  · rintro ⟨⟨a, s₁, h₁, h₂⟩, he⟩
    have e₁ := h₁.moves.errors_grow
    have e₂ := h₂.moves.errors_grow
    rw [he] at e₂
    have e : s₁.errors = s.errors := e₂.eq_of_length_le e₁.length_le
    exact ⟨a, s₁, ⟨h₁, e⟩, h₂, he.trans e.symm⟩
  · rintro ⟨a, s₁, ⟨h₁, e₁⟩, h₂, e₂⟩
    exact ⟨⟨a, s₁, h₁, h₂⟩, e₂.trans e₁⟩

@[simp] theorem yields_bind {b : β} [Moving p] [hf : ∀ a, Moving (f a)] :
    Yields (p >>= f) s b s' ↔ ∃ a s₁, Yields p s a s₁ ∧ Yields (f a) s₁ b s' :=
  yields_bind_of_moving hf

@[simp] theorem yields_map {g : α → β} {b : β} :
    Yields (g <$> p) s b s' ↔ ∃ a, b = g a ∧ Yields p s a s' := by
  unfold Yields
  rw [gives_map]
  constructor
  · rintro ⟨⟨a, hb, h⟩, he⟩
    exact ⟨a, hb, h, he⟩
  · rintro ⟨a, hb, h, he⟩
    exact ⟨⟨a, hb, h⟩, he⟩

@[simp] theorem yields_ite {c : Prop} [Decidable c] {q : Parser α} {a : α} :
    Yields (if c then p else q) s a s' ↔ if c then Yields p s a s' else Yields q s a s' := by
  split <;> rfl

@[simp] theorem yields_expect {kind : Kind} {x : Unit} :
    Yields (expect kind) s x s' ↔ s.peek.kind = kind ∧ s' = s.advance := by
  simp +contextual [Yields, iff_def, State.advance]

theorem yields_get_bind {f : State → Parser β} {b : β} :
    Yields (get >>= f) s b s' ↔ Yields (f s) s b s' := Iff.rfl

theorem yields_cur_bind {f : Token → Parser β} {b : β} :
    Yields (cur >>= f) s b s' ↔ Yields (f s.cur) s b s' := Iff.rfl

theorem yields_peek_bind {f : Token → Parser β} {b : β} :
    Yields (peek >>= f) s b s' ↔ Yields (f s.peek) s b s' := Iff.rfl

theorem yields_advance_bind {f : Unit → Parser β} {b : β} :
    Yields (advance >>= f) s b s' ↔ Yields (f ()) s.advance b s' := Iff.rfl

theorem yields_expect_bind {kind : Kind} {f : Unit → Parser β} {b : β} :
    Yields (expect kind >>= f) s b s' ↔ s.peek.kind = kind ∧ Yields (f ()) s.advance b s' := by
  unfold Yields
  rw [gives_bind]
  constructor
  · rintro ⟨⟨x, s₁, h, h'⟩, he⟩
    obtain ⟨hk, rfl⟩ := gives_expect.1 h
    exact ⟨hk, h', he⟩
  · rintro ⟨hk, h', he⟩
    exact ⟨⟨(), _, gives_expect.2 ⟨hk, rfl⟩, h'⟩, he⟩

theorem errors_skipSemicolons (s : State) : s.skipSemicolons.errors = s.errors := by
  fun_induction State.skipSemicolons s with
  | case1 s _ ih => exact ih
  | case2 s _ => rfl

@[simp] theorem yields_skipSemicolons {x : Unit} :
    Yields (modify State.skipSemicolons) s x s' ↔ s' = s.skipSemicolons := by
  simp +contextual [Yields, iff_def, errors_skipSemicolons]

/-- Opening one more expression changes neither the tokens nor the diagnostics. -/
theorem yields_nested {a : α} :
    Yields (nested p) s a s' ↔
      ∃ s₁, Yields p { s with nesting := s.nesting + 1 } a s₁ ∧
        s' = { s₁ with nesting := s₁.nesting - 1 } := by
  unfold Yields Gives nested
  show ((p { s with nesting := s.nesting + 1 }).1,
    { (p { s with nesting := s.nesting + 1 }).2 with
      nesting := (p { s with nesting := s.nesting + 1 }).2.nesting - 1 }) = _ ∧ _ ↔ _
  constructor
  · rintro ⟨h, he⟩
    obtain ⟨h₁, rfl⟩ := Prod.mk.inj h
    exact ⟨_, ⟨Prod.ext h₁ rfl, he⟩, rfl⟩
  · rintro ⟨s₁, ⟨h, he⟩, rfl⟩
    rw [h]
    exact ⟨rfl, he⟩

/-- A failed statement is reported, so what yields has not failed. -/
@[simp] theorem yields_recovering {o : Option α} [hp : Moving p] :
    Yields (recovering p) s o s' ↔ ∃ a, o = some a ∧ Yields p s a s' := by
  cases o with
  | some a => simp [Yields, gives_recovering_some]
  | none =>
    simp only [Yields, gives_recovering_none, reduceCtorEq, false_and, exists_false, iff_false]
    rintro ⟨⟨d, s₁, h, rfl⟩, he⟩
    have h₁ := hp.moves s
    rw [h] at h₁
    have l₁ := h₁.errors_grow.length_le
    have l₂ := (Moves.refl (s := s₁.report d)).synchronize s.braceDepth |>.errors_grow.length_le
    rw [he] at l₂
    simp only [State.report, List.length_append, List.length_singleton] at l₁ l₂
    omega

/-! ## All parsers only move -/

instance : Moving identifier := inferInstanceAs (Moving (cur >>= _))

instance : Moving expectName := inferInstanceAs (Moving (expect .ident >>= _))

instance : Moving stringLiteral := inferInstanceAs (Moving (cur >>= _))

instance : Moving boolean := inferInstanceAs (Moving (cur >>= _))

instance (cfg : Config) : Moving (integer cfg) := by
  have (token : Token) : Moving (match Numeral.parse? token.text with
      | some value => do
        if Word.greatest < value then throw ⟨.badInteger token.text, token.pos⟩
        return Node.integer token.pos value
      | none => throw ⟨.badInteger token.text, token.pos⟩) := by
    split <;> infer_instance
  exact inferInstanceAs (Moving (traced cfg .integer (cur >>= _)))

instance (names : List Node) : Moving (parametersStep names) := by
  unfold parametersStep
  infer_instance

instance : Moving parameters := by
  unfold parameters
  infer_instance

section

variable (cfg : Config) (expression : Nat → Parser Node) [∀ power, Moving (expression power)]

instance : Moving (letStatement cfg expression) := by
  unfold letStatement
  infer_instance

instance : Moving (returnStatement cfg expression) := by
  unfold returnStatement
  infer_instance

instance : Moving (expressionStatement cfg expression) := by
  unfold expressionStatement
  infer_instance

instance : Moving (statement cfg expression) := by
  have (token : Token) : Moving (match token.kind with
      | .letKey => letStatement cfg expression
      | .returnKey => returnStatement cfg expression
      | _ => expressionStatement cfg expression) := by
    split <;> infer_instance
  exact inferInstanceAs (Moving (recovering (cur >>= _)))

instance (depth : Int) (ss : List Node) : Moving (blockStep cfg expression depth ss) := by
  have (o : Option Node) : Moving (match o with
      | some s => do
        advance
        return some (ss ++ [s])
      | none => do
        if (← get).braceDepth < depth then return none
        advance
        return some ss : Parser (Option (List Node))) := by
    split <;> infer_instance
  unfold blockStep
  infer_instance

instance : Moving (block cfg expression) := by
  unfold block
  infer_instance

instance (ss : List Node) : Moving (programStep cfg expression ss) := by
  unfold programStep
  infer_instance

instance : Moving (unary cfg expression) := by
  unfold unary
  infer_instance

instance : Moving (group expression) := by
  unfold group
  infer_instance

instance : Moving (elseBlock cfg expression) := by
  unfold elseBlock
  infer_instance

set_option synthInstance.maxSize 256 in
instance : Moving (conditional cfg expression) := by
  unfold conditional
  infer_instance

instance : Moving (functionLiteral cfg expression) := by
  unfold functionLiteral
  infer_instance

instance (args : List Node) : Moving (argumentsStep expression args) := by
  unfold argumentsStep
  infer_instance

instance : Moving (arguments expression) := by
  unfold arguments
  infer_instance

instance (left : Node) : Moving (binary cfg expression left) := by
  unfold binary
  infer_instance

instance (left : Node) : Moving (call cfg expression left) := by
  unfold call
  infer_instance

instance : Moving (startExpression cfg expression) := by
  have (token : Token) : Moving (match cfg.starter? token.kind with
      | some .identifier => identifier
      | some .integer => integer cfg
      | some .string => stringLiteral
      | some .boolean => boolean
      | some .unary => unary cfg expression
      | some .group => group expression
      | some .conditional => conditional cfg expression
      | some .function => functionLiteral cfg expression
      | none => throw ⟨.noExpression token.kind, token.pos⟩) := by
    split <;> infer_instance
  exact inferInstanceAs (Moving (cur >>= _))

instance (power : Nat) (left : Node) : Moving (extendStep cfg expression power left) := by
  have (next : Token) : Moving (match cfg.continuer? next.kind with
      | none => return none
      | some .binary => do
        advance
        return some (← binary cfg expression left)
      | some .call => do
        advance
        return some (← call cfg expression left) : Parser (Option Node)) := by
    split <;> infer_instance
  unfold extendStep
  infer_instance

instance (power : Nat) : Moving (expressionWith cfg expression power) := by
  unfold expressionWith
  infer_instance

end

/-- **Parsing an expression only moves**, whatever it is given and however it ends. -/
theorem moving_expression (cfg : Config) :
    ∀ budget power, Moving (expression cfg budget power) := by
  intro budget
  induction budget with
  | zero => intro power; exact inferInstanceAs (Moving (cur >>= _))
  | succ budget ih => intro power; exact inferInstanceAs (Moving (nested _))

instance (cfg : Config) (budget power : Nat) : Moving (expression cfg budget power) :=
  moving_expression cfg budget power

end Scriptlet.Parser
