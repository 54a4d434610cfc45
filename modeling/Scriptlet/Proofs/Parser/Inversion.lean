import Scriptlet.Proofs.Parser.Loops
import Scriptlet.Proofs.Parser.Reads

/-!
# What each parser gives

One lemma for each parser: it gives a result without a diagnostic iff its parts do, one after the
other, and the tokens in between are the ones that it asks for. Later proofs cite these and do not
open the parsers.
-/

namespace Scriptlet.Parser

open Syntax (Node)
open Token (Kind)

/-- A configuration that records no trace and excludes no kind of token. -/
structure Config.Plain (cfg : Config) : Prop where
  trace : cfg.trace = false
  starter : ∀ kind, cfg.starter? kind = Parser.starter? kind
  continuer : ∀ kind, cfg.continuer? kind = Parser.continuer? kind

theorem Config.plain (m : Int) : Config.Plain { maxNesting := m } :=
  ⟨rfl, fun _ => rfl, fun _ => rfl⟩

theorem traced_eq {α : Type} {cfg : Config} (hc : cfg.Plain) (rule : Rule) (p : Parser α) :
    traced cfg rule p = p := by
  unfold traced
  rw [hc.trace]
  rfl

variable {cfg : Config} {expression : Nat → Parser Node} {s s' : State} {n left : Node}

/-! ## Names and parameters -/

theorem yields_expectName :
    Yields expectName s n s' ↔
      s.peek.kind = .ident ∧ n = .identifier s.peek.pos s.peek.text ∧ s' = s.advance := by
  simp only [expectName, identifier, yields_expect_bind, yields_cur_bind, yields_pure]
  rfl

theorem yields_parametersStep {ns : List Node} {o : Option (List Node)} :
    Yields (parametersStep ns) s o s' ↔
      (s.peek.kind ≠ .comma ∧ o = none ∧ s' = s) ∨
      (s.peek.kind = .comma ∧ s.advance.peek.kind = .ident ∧
        o = some (ns ++ [.identifier s.advance.peek.pos s.advance.peek.text]) ∧
        s' = s.advance.advance) := by
  unfold parametersStep
  rw [yields_peek_bind]
  simp only [yields_ite, yields_pure]
  split
  · rename_i h
    simp [h]
  · rename_i h
    rw [yields_advance_bind, bind_pure_comp, yields_map]
    have hk := Decidable.not_not.1 h
    simp only [yields_expectName, hk, ne_eq, not_true_eq_false, false_and, false_or, true_and]
    constructor
    · rintro ⟨_, rfl, hk, rfl, rfl⟩
      exact ⟨hk, rfl, rfl⟩
    · rintro ⟨hk, rfl, rfl⟩
      exact ⟨_, rfl, hk, rfl, rfl⟩

theorem yields_parameters {ns : List Node} :
    Yields parameters s ns s' ↔
      (s.peek.kind = .rparen ∧ ns = [] ∧ s' = s.advance) ∨
      (s.peek.kind = .ident ∧ ∃ s₁,
        Yields (iterate parametersStep [.identifier s.peek.pos s.peek.text]) s.advance ns s₁ ∧
        s₁.peek.kind = .rparen ∧ s' = s₁.advance) := by
  unfold parameters
  rw [yields_peek_bind]
  simp only [yields_ite]
  split
  · rename_i h
    rw [yields_advance_bind, yields_pure]
    simp [h]
  · rename_i h
    simp only [yields_bind, yields_expectName, yields_expect, yields_pure, h, false_and, false_or]
    constructor
    · rintro ⟨_, _, ⟨hk, rfl, rfl⟩, ns', s₁, h₁, _, _, ⟨hp, rfl⟩, rfl, rfl⟩
      exact ⟨hk, s₁, h₁, hp, rfl⟩
    · rintro ⟨hk, s₁, h₁, hp, rfl⟩
      exact ⟨_, _, ⟨hk, rfl, rfl⟩, ns, s₁, h₁, (), _, ⟨hp, rfl⟩, rfl, rfl⟩

/-! ## Statements and blocks -/

section

variable [∀ power, Moving (expression power)]

theorem yields_letStatement (hc : cfg.Plain) :
    Yields (letStatement cfg expression) s n s' ↔
      s.peek.kind = .ident ∧ s.advance.peek.kind = .assign ∧
      ∃ v s₁, Yields (expression Kind.lowestPower) s.advance.advance.advance v s₁ ∧
        n = .binding s.cur.pos (.identifier s.peek.pos s.peek.text) v ∧ s' = s₁.skipSemicolons := by
  rw [letStatement, traced_eq hc]
  simp only [↓yields_cur_bind, ↓yields_advance_bind, ↓yields_expect_bind, yields_bind,
    yields_expectName, yields_skipSemicolons, yields_pure]
  constructor
  · rintro ⟨_, _, ⟨hn, rfl, rfl⟩, ha, v, s₁, hv, _, _, rfl, rfl, rfl⟩
    exact ⟨hn, ha, v, s₁, hv, rfl, rfl⟩
  · rintro ⟨hn, ha, v, s₁, hv, rfl, rfl⟩
    exact ⟨_, _, ⟨hn, rfl, rfl⟩, ha, v, s₁, hv, (), _, rfl, rfl, rfl⟩

theorem yields_returnStatement (hc : cfg.Plain) :
    Yields (returnStatement cfg expression) s n s' ↔
      ∃ v s₁, Yields (expression Kind.lowestPower) s.advance v s₁ ∧
        n = .returning s.cur.pos v ∧ s' = s₁.skipSemicolons := by
  rw [returnStatement, traced_eq hc]
  simp only [↓yields_cur_bind, ↓yields_advance_bind, yields_bind, yields_skipSemicolons,
    yields_pure]
  constructor
  · rintro ⟨v, s₁, hv, _, _, rfl, rfl, rfl⟩
    exact ⟨v, s₁, hv, rfl, rfl⟩
  · rintro ⟨v, s₁, hv, rfl, rfl⟩
    exact ⟨v, s₁, hv, (), _, rfl, rfl, rfl⟩

theorem yields_expressionStatement (hc : cfg.Plain) :
    Yields (expressionStatement cfg expression) s n s' ↔
      ∃ v s₁, Yields (expression Kind.lowestPower) s v s₁ ∧ n = .statement s.cur.pos v ∧
        s' = if s₁.peek.kind = .semicolon then s₁.advance else s₁ := by
  rw [expressionStatement, traced_eq hc]
  simp only [↓yields_cur_bind, yields_bind, ↓yields_peek_bind, yields_ite, ↓yields_advance_bind,
    yields_pure]
  refine exists_congr fun v => exists_congr fun s₁ => and_congr_right fun _ => ?_
  split <;> rfl

theorem yields_statement {o : Option Node} :
    Yields (statement cfg expression) s o s' ↔
      ∃ n, o = some n ∧ Yields (match s.cur.kind with
        | .letKey => letStatement cfg expression
        | .returnKey => returnStatement cfg expression
        | _ => expressionStatement cfg expression) s n s' := by
  have (token : Token) : Moving (match token.kind with
      | .letKey => letStatement cfg expression
      | .returnKey => returnStatement cfg expression
      | _ => expressionStatement cfg expression) := by
    split <;> infer_instance
  unfold statement
  rw [yields_recovering]
  exact Iff.rfl

theorem yields_blockStep {depth : Int} {ss : List Node} {o : Option (List Node)} :
    Yields (blockStep cfg expression depth ss) s o s' ↔
      ((s.cur.kind = .rbrace ∨ s.cur.kind = .eof) ∧ o = none ∧ s' = s) ∨
      (¬ (s.cur.kind = .rbrace ∨ s.cur.kind = .eof) ∧
        ∃ n s₁, Yields (statement cfg expression) s (some n) s₁ ∧ o = some (ss ++ [n]) ∧
          s' = s₁.advance) := by
  unfold blockStep
  rw [yields_cur_bind]
  simp only [yields_ite]
  split
  · rename_i h
    simp [h]
  · rename_i h
    rw [yields_bind_of_moving]
    · simp only [h, false_and, false_or, not_false_eq_true, true_and]
      constructor
      · rintro ⟨o', s₁, h₁, h₂⟩
        -- a statement that failed has been reported, so that there is one
        obtain ⟨n, rfl, -⟩ := yields_statement.1 h₁
        simp only [yields_advance_bind, yields_pure] at h₂
        exact ⟨n, s₁, h₁, h₂.1, h₂.2⟩
      · rintro ⟨n, s₁, h₁, rfl, rfl⟩
        exact ⟨some n, s₁, h₁, by simp only [yields_advance_bind, yields_pure, true_and]⟩
    · intro o
      cases o <;> (dsimp only; infer_instance)

theorem yields_programStep {ss : List Node} {o : Option (List Node)} :
    Yields (programStep cfg expression ss) s o s' ↔
      (s.cur.kind = .eof ∧ o = none ∧ s' = s) ∨
      (s.cur.kind ≠ .eof ∧
        ∃ n s₁, Yields (statement cfg expression) s (some n) s₁ ∧ o = some (ss ++ [n]) ∧
          s' = s₁.advance) := by
  unfold programStep
  rw [yields_cur_bind]
  simp only [yields_ite]
  split
  · rename_i h
    simp [h]
  · rename_i h
    rw [yields_bind]
    simp only [h, false_and, false_or, ne_eq, not_false_eq_true, true_and, yields_advance_bind,
      yields_pure]
    constructor
    · rintro ⟨o', s₁, h₁, h₂⟩
      obtain ⟨n, rfl, -⟩ := yields_statement.1 h₁
      exact ⟨n, s₁, h₁, h₂.1, h₂.2⟩
    · rintro ⟨n, s₁, h₁, rfl, rfl⟩
      exact ⟨some n, s₁, h₁, rfl, rfl⟩

end

theorem yields_block (hc : cfg.Plain) :
    Yields (block cfg expression) s n s' ↔
      ∃ ss, n = .block s.cur.pos ss ∧
        Yields (iterate (blockStep cfg expression s.braceDepth) []) s.advance ss s' := by
  unfold block
  rw [traced_eq hc, yields_cur_bind, yields_get_bind, yields_advance_bind, bind_pure_comp,
    yields_map]

/-! ## Expressions -/

theorem yields_identifier :
    Yields identifier s n s' ↔ n = .identifier s.cur.pos s.cur.text ∧ s' = s := by
  rw [identifier, yields_cur_bind, yields_pure]

theorem yields_stringLiteral :
    Yields stringLiteral s n s' ↔ n = .string s.cur.pos s.cur.text ∧ s' = s := by
  rw [stringLiteral, yields_cur_bind, yields_pure]

theorem yields_boolean :
    Yields boolean s n s' ↔ n = .boolean s.cur.pos (s.cur.kind == .trueKey) ∧ s' = s := by
  rw [boolean, yields_cur_bind, yields_pure]

theorem yields_integer (hc : cfg.Plain) :
    Yields (integer cfg) s n s' ↔
      ∃ v, Numeral.parse? s.cur.text = some v ∧ v ≤ Word.greatest ∧
        n = .integer s.cur.pos v ∧ s' = s := by
  rw [integer, traced_eq hc, yields_cur_bind]
  split
  · rename_i v hv
    by_cases hg : Word.greatest < v
    · rw [if_pos hg]
      simp only [yields_bind, yields_throw, false_and, exists_false, false_iff]
      rintro ⟨w, hw, hle, -⟩
      rw [hv] at hw
      cases hw
      omega
    · rw [if_neg hg]
      simp only [yields_pure]
      constructor
      · rintro ⟨rfl, rfl⟩
        exact ⟨v, hv, by omega, rfl, rfl⟩
      · rintro ⟨w, hw, -, rfl, rfl⟩
        rw [hv] at hw
        cases hw
        exact ⟨rfl, rfl⟩
  · rename_i hv
    simp [hv]

theorem yields_unary (hc : cfg.Plain) :
    Yields (unary cfg expression) s n s' ↔
      ∃ e, n = .unary s.cur.pos s.cur.text e ∧
        Yields (expression Kind.prefixPower) s.advance e s' := by
  rw [unary, traced_eq hc, yields_cur_bind, yields_advance_bind, bind_pure_comp, yields_map]

theorem yields_binary (hc : cfg.Plain) :
    Yields (binary cfg expression left) s n s' ↔
      ∃ e, n = .binary s.cur.pos left s.cur.text e ∧
        Yields (expression s.cur.kind.power) s.advance e s' := by
  rw [binary, traced_eq hc, yields_cur_bind, yields_advance_bind, bind_pure_comp, yields_map]

theorem yields_call (hc : cfg.Plain) :
    Yields (call cfg expression left) s n s' ↔
      ∃ args, n = .call s.cur.pos left args ∧ Yields (arguments expression) s args s' := by
  rw [call, traced_eq hc, yields_cur_bind, bind_pure_comp, yields_map]

theorem yields_elseBlock {o : Option Node} :
    Yields (elseBlock cfg expression) s o s' ↔
      (s.peek.kind ≠ .elseKey ∧ o = none ∧ s' = s) ∨
      (s.peek.kind = .elseKey ∧ s.advance.peek.kind = .lbrace ∧
        ∃ b, o = some b ∧ Yields (block cfg expression) s.advance.advance b s') := by
  unfold elseBlock
  rw [yields_peek_bind]
  simp only [yields_ite, yields_pure]
  split
  · rename_i h
    simp [h]
  · rename_i h
    have hk := Decidable.not_not.1 h
    rw [yields_advance_bind, yields_expect_bind, bind_pure_comp, yields_map]
    simp only [hk, ne_eq, not_true_eq_false, false_and, false_or, true_and]

theorem yields_argumentsStep {args : List Node} {o : Option (List Node)} :
    Yields (argumentsStep expression args) s o s' ↔
      (s.peek.kind ≠ .comma ∧ o = none ∧ s' = s) ∨
      (s.peek.kind = .comma ∧ ∃ e, o = some (args ++ [e]) ∧
        Yields (expression Kind.lowestPower) s.advance.advance e s') := by
  unfold argumentsStep
  rw [yields_peek_bind]
  simp only [yields_ite, yields_pure]
  split
  · rename_i h
    simp [h]
  · rename_i h
    have hk := Decidable.not_not.1 h
    rw [yields_advance_bind, yields_advance_bind, bind_pure_comp, yields_map]
    simp only [hk, ne_eq, not_true_eq_false, false_and, false_or, true_and]

theorem yields_startExpression (hc : cfg.Plain) :
    Yields (startExpression cfg expression) s n s' ↔
      Yields (match s.cur.kind with
        | .ident => identifier
        | .int => integer cfg
        | .string => stringLiteral
        | .trueKey => boolean
        | .falseKey => boolean
        | .bang => unary cfg expression
        | .minus => unary cfg expression
        | .lparen => group expression
        | .ifKey => conditional cfg expression
        | .function => functionLiteral cfg expression
        | _ => throw ⟨.noExpression s.cur.kind, s.cur.pos⟩) s n s' := by
  unfold startExpression
  rw [yields_cur_bind, hc.starter]
  cases s.cur.kind <;> rfl

theorem yields_extendStep {power : Nat} {o : Option Node} (hc : cfg.Plain) :
    Yields (extendStep cfg expression power left) s o s' ↔
      (¬ Reads.Continues power s.peek.kind ∧ o = none ∧ s' = s) ∨
      (s.peek.kind.isInfix = true ∧ power < s.peek.kind.power ∧
        ∃ e, o = some e ∧ Yields (binary cfg expression left) s.advance e s') ∨
      (s.peek.kind = .lparen ∧ power < s.peek.kind.power ∧
        ∃ e, o = some e ∧ Yields (call cfg expression left) s.advance e s') := by
  unfold extendStep Reads.Continues
  rw [yields_peek_bind, hc.continuer, continuer?]
  simp only [yields_ite, yields_pure]
  by_cases hp : power < s.peek.kind.power
  · have hle := Nat.not_le.2 hp
    by_cases hi : s.peek.kind.isInfix = true
    · have hs : s.peek.kind ≠ .semicolon := fun h => by simp [h, Kind.isInfix] at hi
      have hl : s.peek.kind ≠ .lparen := fun h => by simp [h, Kind.isInfix] at hi
      simp only [hp, hle, hi, hs, hl, if_true, if_false, and_self, not_true_eq_false, false_and,
        false_or, true_and, or_false]
      rw [yields_advance_bind, bind_pure_comp, yields_map]
    · by_cases hl : s.peek.kind = .lparen
      · have hs : s.peek.kind ≠ .semicolon := by simp [hl]
        rw [if_neg hi, if_pos hl, if_neg (not_or.2 ⟨hs, hle⟩)]
        dsimp only
        rw [yields_advance_bind, bind_pure_comp, yields_map]
        rw [hl] at hp
        simp [hl, hp, Kind.isInfix]
      · rw [if_neg hi, if_neg hl]
        simp [hi, hl]
  · simp [hp, Nat.not_lt.1 hp]

section

variable [∀ power, Moving (expression power)]

theorem yields_group :
    Yields (group expression) s n s' ↔
      ∃ s₁, Yields (expression Kind.lowestPower) s.advance n s₁ ∧ s₁.peek.kind = .rparen ∧
        s' = s₁.advance := by
  rw [group, yields_advance_bind]
  simp only [yields_bind, ↓yields_expect_bind, yields_pure]
  constructor
  · rintro ⟨_, s₁, h, hp, rfl, rfl⟩
    exact ⟨s₁, h, hp, rfl⟩
  · rintro ⟨s₁, h, hp, rfl⟩
    exact ⟨_, s₁, h, hp, rfl, rfl⟩

theorem yields_conditional (hc : cfg.Plain) :
    Yields (conditional cfg expression) s n s' ↔
      s.peek.kind = .lparen ∧
      ∃ c s₁, Yields (expression Kind.lowestPower) s.advance.advance c s₁ ∧
        s₁.peek.kind = .rparen ∧ s₁.advance.peek.kind = .lbrace ∧
        ∃ t s₂, Yields (block cfg expression) s₁.advance.advance t s₂ ∧
          ∃ a, Yields (elseBlock cfg expression) s₂ a s' ∧
            n = .conditional s.cur.pos c t a := by
  rw [conditional, traced_eq hc, yields_cur_bind, yields_expect_bind, yields_advance_bind]
  simp only [yields_bind, ↓yields_expect_bind, yields_pure]
  constructor
  · rintro ⟨hl, c, s₁, h₁, hp, hb, t, s₂, h₂, a, _, h₃, rfl, rfl⟩
    exact ⟨hl, c, s₁, h₁, hp, hb, t, s₂, h₂, a, h₃, rfl⟩
  · rintro ⟨hl, c, s₁, h₁, hp, hb, t, s₂, h₂, a, h₃, rfl⟩
    exact ⟨hl, c, s₁, h₁, hp, hb, t, s₂, h₂, a, _, h₃, rfl, rfl⟩

theorem yields_functionLiteral (hc : cfg.Plain) :
    Yields (functionLiteral cfg expression) s n s' ↔
      s.peek.kind = .lparen ∧
      ∃ ns s₁, Yields parameters s.advance ns s₁ ∧ s₁.peek.kind = .lbrace ∧
        ∃ b, Yields (block cfg expression) s₁.advance b s' ∧ n = .function s.cur.pos ns b := by
  rw [functionLiteral, traced_eq hc, yields_cur_bind, yields_expect_bind]
  simp only [yields_bind, ↓yields_expect_bind, yields_pure]
  constructor
  · rintro ⟨hl, ns, s₁, h₁, hb, b, _, h₂, rfl, rfl⟩
    exact ⟨hl, ns, s₁, h₁, hb, b, h₂, rfl⟩
  · rintro ⟨hl, ns, s₁, h₁, hb, b, h₂, rfl⟩
    exact ⟨hl, ns, s₁, h₁, hb, b, _, h₂, rfl, rfl⟩

theorem yields_arguments {args : List Node} :
    Yields (arguments expression) s args s' ↔
      (s.peek.kind = .rparen ∧ args = [] ∧ s' = s.advance) ∨
      (s.peek.kind ≠ .rparen ∧
        ∃ e s₁ s₂, Yields (expression Kind.lowestPower) s.advance e s₁ ∧
          Yields (iterate (argumentsStep expression) [e]) s₁ args s₂ ∧
          s₂.peek.kind = .rparen ∧ s' = s₂.advance) := by
  unfold arguments
  rw [yields_peek_bind]
  simp only [yields_ite]
  split
  · rename_i h
    rw [yields_advance_bind, yields_pure]
    simp [h]
  · rename_i h
    rw [yields_advance_bind]
    simp only [yields_bind, ↓yields_expect_bind, yields_pure, h, false_and, false_or, ne_eq,
      not_false_eq_true, true_and]
    constructor
    · rintro ⟨e, s₁, h₁, _, s₂, h₂, hp, rfl, rfl⟩
      exact ⟨e, s₁, s₂, h₁, h₂, hp, rfl⟩
    · rintro ⟨e, s₁, s₂, h₁, h₂, hp, rfl⟩
      exact ⟨e, s₁, h₁, _, s₂, h₂, hp, rfl, rfl⟩

theorem yields_expressionWith {power : Nat} (hc : cfg.Plain) :
    Yields (expressionWith cfg expression power) s n s' ↔
      ∃ left s₁, Yields (startExpression cfg expression) s left s₁ ∧
        Yields (iterate (extendStep cfg expression power) left) s₁ n s' := by
  rw [expressionWith, traced_eq hc, yields_bind]

end

end Scriptlet.Parser
