import Scriptlet.Proofs.Parser.Composition

/-!
# Relations between two parsers of expressions

Every rule of the grammar is put together from the parsers of the expressions inside it. So if two
parsers of expressions belong together, the rules that are built on them do too, as long as what it
means to belong together is kept by the ways in which the rules are put together.

* `Congruence`: a relation of parsers that is kept so; the two sides may have two configurations.
* `Congruence.holds_statement`, `Congruence.holds_programWith`, `Congruence.holds_expressionWith`:
  statements, programs and expressions belong together if the expressions inside do.
-/

namespace Scriptlet.Parser

open Syntax (Node)
open Token (Kind)

/-- A relation of two parsers that is kept by the ways of putting parsers together. -/
structure Congruence (cfg cfg' : Config) (C : (α : Type) → Parser α → Parser α → Prop) : Prop where
  starter? : cfg'.starter? = cfg.starter?
  continuer? : cfg'.continuer? = cfg.continuer?
  give {α : Type} (a : α) : C α (pure a) (pure a)
  fail {α : Type} (d : Diagnostic) : C α (throw d) (throw d)
  current : C Token cur cur
  next : C Token peek peek
  move : C Unit advance advance
  skip : C Unit (modify State.skipSemicolons) (modify State.skipSemicolons)
  braces {α : Type} {f f' : Int → Parser α} : (∀ depth, C α (f depth) (f' depth)) →
    C α (get >>= fun s => f s.braceDepth) (get >>= fun s => f' s.braceDepth)
  seq {α β : Type} {p p' : Parser α} {f f' : α → Parser β} :
    C α p p' → (∀ a, C β (f a) (f' a)) → C β (p >>= f) (p' >>= f')
  rule (r : Rule) {p p' : Parser Node} : C Node p p' → C Node (traced cfg r p) (traced cfg' r p')
  attempt {p p' : Parser Node} : C Node p p' → C (Option Node) (recovering p) (recovering p')
  loop {α : Type} {step step' : α → Parser (Option α)} [Ending step] [Ending step'] :
    (∀ a, C (Option α) (step a) (step' a)) → ∀ a, C α (iterate step a) (iterate step' a)

namespace Congruence

variable {cfg cfg' : Config} {C : (α : Type) → Parser α → Parser α → Prop}
  (hC : Congruence cfg cfg' C) {α : Type}

include hC

/-! ## Parsers without expressions inside -/

theorem holds_expect (kind : Kind) : C Unit (expect kind) (expect kind) := by
  refine hC.seq hC.next fun token => ?_
  split
  · exact hC.move
  · exact hC.fail _

theorem holds_identifier : C Node identifier identifier := hC.seq hC.current fun _ => hC.give _

theorem holds_expectName : C Node expectName expectName :=
  hC.seq (hC.holds_expect _) fun _ => hC.holds_identifier

theorem holds_integer : C Node (integer cfg) (integer cfg') := by
  refine hC.rule _ (hC.seq hC.current fun token => ?_)
  cases Numeral.parse? token.text with
  | none => exact hC.fail _
  | some value =>
    dsimp only
    split
    · exact hC.seq (hC.fail _) fun _ => hC.give _
    · exact hC.give _

theorem holds_parameters : C (List Node) parameters parameters := by
  have hstep : ∀ names, C _ (parametersStep names) (parametersStep names) := by
    intro names
    refine hC.seq hC.next fun token => ?_
    split
    · exact hC.give _
    · refine hC.seq hC.move fun _ => ?_
      exact hC.seq hC.holds_expectName fun _ => hC.give _
  refine hC.seq hC.next fun token => ?_
  split
  · exact hC.seq hC.move fun _ => hC.give _
  · refine hC.seq hC.holds_expectName fun first => ?_
    refine hC.seq (hC.loop hstep _) fun names => ?_
    exact hC.seq (hC.holds_expect _) fun _ => hC.give _

/-! ## Statements -/

section

variable {e e' : Nat → Parser Node} (he : ∀ power, C Node (e power) (e' power))

include he

theorem holds_letStatement : C Node (letStatement cfg e) (letStatement cfg' e') := by
  refine hC.rule _ (hC.seq hC.current fun first => ?_)
  refine hC.seq hC.holds_expectName fun name => ?_
  refine hC.seq (hC.holds_expect _) fun _ => hC.seq hC.move fun _ => ?_
  refine hC.seq (he _) fun value => ?_
  exact hC.seq hC.skip fun _ => hC.give _

theorem holds_returnStatement : C Node (returnStatement cfg e) (returnStatement cfg' e') := by
  refine hC.rule _ (hC.seq hC.current fun first => hC.seq hC.move fun _ => ?_)
  refine hC.seq (he _) fun value => ?_
  exact hC.seq hC.skip fun _ => hC.give _

theorem holds_expressionStatement :
    C Node (expressionStatement cfg e) (expressionStatement cfg' e') := by
  refine hC.rule _ (hC.seq hC.current fun first => ?_)
  refine hC.seq (he _) fun value => hC.seq hC.next fun token => ?_
  split
  · exact hC.seq hC.move fun _ => hC.give _
  · exact hC.give _

theorem holds_statement : C (Option Node) (statement cfg e) (statement cfg' e') := by
  refine hC.attempt (hC.seq hC.current fun token => ?_)
  split
  · exact hC.holds_letStatement he
  · exact hC.holds_returnStatement he
  · exact hC.holds_expressionStatement he

theorem holds_blockStep (depth : Int) (ss : List Node) :
    C (Option (List Node)) (blockStep cfg e depth ss) (blockStep cfg' e' depth ss) := by
  refine hC.seq hC.current fun token => ?_
  dsimp only
  split
  · exact hC.give _
  refine hC.seq (hC.holds_statement he) fun o => ?_
  cases o with
  | some s => exact hC.seq hC.move fun _ => hC.give _
  | none =>
    -- the depth is read from the state, so that what depends on it is related for every depth
    have hround : ∀ here : Int, C (Option (List Node))
        (if here < depth then pure none else advance >>= fun _ => pure (some ss))
        (if here < depth then pure none else advance >>= fun _ => pure (some ss)) := by
      intro here
      split
      · exact hC.give _
      · exact hC.seq hC.move fun _ => hC.give _
    exact (hC.braces hround :)

/-! ## Expressions -/

theorem holds_unary : C Node (unary cfg e) (unary cfg' e') := by
  refine hC.rule _ (hC.seq hC.current fun token => hC.seq hC.move fun _ => ?_)
  exact hC.seq (he _) fun _ => hC.give _

theorem holds_binary (left : Node) : C Node (binary cfg e left) (binary cfg' e' left) := by
  refine hC.rule _ (hC.seq hC.current fun token => hC.seq hC.move fun _ => ?_)
  exact hC.seq (he _) fun _ => hC.give _

theorem holds_group : C Node (group e) (group e') := by
  refine hC.seq hC.move fun _ => hC.seq (he _) fun _ => ?_
  exact hC.seq (hC.holds_expect _) fun _ => hC.give _

variable [∀ power, Moving (e power)] [∀ power, Moving (e' power)]

theorem holds_block : C Node (block cfg e) (block cfg' e') := by
  refine hC.rule _ (hC.seq hC.current fun first => ?_)
  have hbody : ∀ depth : Int, C Node
      (advance >>= fun _ =>
        iterate (blockStep cfg e depth) [] >>= fun ss => pure (.block first.pos ss))
      (advance >>= fun _ =>
        iterate (blockStep cfg' e' depth) [] >>= fun ss => pure (.block first.pos ss)) := by
    intro depth
    refine hC.seq hC.move fun _ => ?_
    exact hC.seq (hC.loop (hC.holds_blockStep he depth) []) fun _ => hC.give _
  exact (hC.braces hbody :)

theorem holds_programWith : C Node (programWith cfg e) (programWith cfg' e') := by
  have hstep : ∀ ss, C _ (programStep cfg e ss) (programStep cfg' e' ss) := by
    intro ss
    refine hC.seq hC.current fun token => ?_
    split
    · exact hC.give _
    · refine hC.seq (hC.holds_statement he) fun _ => ?_
      exact hC.seq hC.move fun _ => hC.give _
  exact hC.seq (hC.loop hstep []) fun _ => hC.give _

theorem holds_elseBlock : C (Option Node) (elseBlock cfg e) (elseBlock cfg' e') := by
  refine hC.seq hC.next fun token => ?_
  split
  · exact hC.give _
  · refine hC.seq hC.move fun _ => hC.seq (hC.holds_expect _) fun _ => ?_
    exact hC.seq (hC.holds_block he) fun _ => hC.give _

theorem holds_conditional : C Node (conditional cfg e) (conditional cfg' e') := by
  refine hC.rule _ (hC.seq hC.current fun token => ?_)
  refine hC.seq (hC.holds_expect _) fun _ => hC.seq hC.move fun _ => ?_
  refine hC.seq (he _) fun condition => ?_
  refine hC.seq (hC.holds_expect _) fun _ => hC.seq (hC.holds_expect _) fun _ => ?_
  refine hC.seq (hC.holds_block he) fun consequence => ?_
  exact hC.seq (hC.holds_elseBlock he) fun _ => hC.give _

theorem holds_functionLiteral : C Node (functionLiteral cfg e) (functionLiteral cfg' e') := by
  refine hC.rule _ (hC.seq hC.current fun token => ?_)
  refine hC.seq (hC.holds_expect _) fun _ => hC.seq hC.holds_parameters fun names => ?_
  refine hC.seq (hC.holds_expect _) fun _ => ?_
  exact hC.seq (hC.holds_block he) fun _ => hC.give _

theorem holds_arguments : C (List Node) (arguments e) (arguments e') := by
  have hstep : ∀ args, C _ (argumentsStep e args) (argumentsStep e' args) := by
    intro args
    refine hC.seq hC.next fun token => ?_
    split
    · exact hC.give _
    · refine hC.seq hC.move fun _ => hC.seq hC.move fun _ => ?_
      exact hC.seq (he _) fun _ => hC.give _
  refine hC.seq hC.next fun token => ?_
  split
  · exact hC.seq hC.move fun _ => hC.give _
  · refine hC.seq hC.move fun _ => hC.seq (he _) fun first => ?_
    refine hC.seq (hC.loop hstep _) fun args => ?_
    exact hC.seq (hC.holds_expect _) fun _ => hC.give _

theorem holds_call (left : Node) : C Node (call cfg e left) (call cfg' e' left) := by
  refine hC.rule _ (hC.seq hC.current fun token => ?_)
  exact hC.seq (hC.holds_arguments he) fun _ => hC.give _

theorem holds_startExpression : C Node (startExpression cfg e) (startExpression cfg' e') := by
  refine hC.seq hC.current fun token => ?_
  rw [hC.starter?]
  cases cfg.starter? token.kind with
  | none => exact hC.fail _
  | some starter =>
    cases starter with
    | identifier => exact hC.holds_identifier
    | integer => exact hC.holds_integer
    | string => exact hC.seq hC.current fun _ => hC.give _
    | boolean => exact hC.seq hC.current fun _ => hC.give _
    | unary => exact hC.holds_unary he
    | group => exact hC.holds_group he
    | conditional => exact hC.holds_conditional he
    | function => exact hC.holds_functionLiteral he

theorem holds_extendStep (power : Nat) (left : Node) :
    C (Option Node) (extendStep cfg e power left) (extendStep cfg' e' power left) := by
  refine hC.seq hC.next fun next => ?_
  rw [hC.continuer?]
  split
  · exact hC.give _
  cases cfg.continuer? next.kind with
  | none => exact hC.give _
  | some continuer =>
    cases continuer with
    | binary =>
      refine hC.seq hC.move fun _ => ?_
      exact hC.seq (hC.holds_binary he left) fun _ => hC.give _
    | call =>
      refine hC.seq hC.move fun _ => ?_
      exact hC.seq (hC.holds_call he left) fun _ => hC.give _

theorem holds_expressionWith (power : Nat) :
    C Node (expressionWith cfg e power) (expressionWith cfg' e' power) := by
  refine hC.rule _ (hC.seq (hC.holds_startExpression he) fun left => ?_)
  exact hC.loop (hC.holds_extendStep he power) left

end

end Congruence

end Scriptlet.Parser
