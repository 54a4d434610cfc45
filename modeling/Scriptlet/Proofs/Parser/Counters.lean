import Scriptlet.Proofs.Parser.Congruence
import Scriptlet.Proofs.Parser.Sequence

/-!
# How a parse ends

Parsing ends for every list of tokens and every limit on nesting, and leaves what it counts as it
found it, however many statements fail on the way. An expression inside another one is parsed with
one more of them open, and there are none above the limit. A loop uses up a token in every round, so
that it ends by itself.

* `Agrees`: two parsers do the same where a given number of expressions is open, and keep the counts.
* `parseExpression_run`: the limit on nesting is checked against the number of open expressions.
* `Repeats`: a loop without a bound on its rounds.
* `Terminates`: what makes a parse end.
* `parse_restores`: a parse ends at the end of the text, with nothing open.
-/

namespace Scriptlet.Parser

open Syntax (Node)
open Token (Kind)

/-! ## Counts that are restored -/

theorem counts_skipSemicolons (s : State) :
    s.skipSemicolons.nesting = s.nesting ∧ s.skipSemicolons.traceLevel = s.traceLevel := by
  fun_induction State.skipSemicolons s with
  | case1 s _ ih => exact ih
  | case2 s _ => exact ⟨rfl, rfl⟩

theorem counts_synchronize (depth : Int) (s : State) :
    (s.synchronize depth).nesting = s.nesting ∧
      (s.synchronize depth).traceLevel = s.traceLevel := by
  fun_induction State.synchronize depth s with
  | case1 s _ => exact ⟨rfl, rfl⟩
  | case2 s _ ih => exact ih

/-- Where `n` expressions are open the two parsers do the same, and end with as many expressions and
rules open as they start with, whether they give a result or fail. -/
def Agrees (n : Nat) (α : Type) (p p' : Parser α) : Prop :=
  ∀ s : State, s.nesting = n →
    p s = p' s ∧ (p s).2.nesting = n ∧ (p s).2.traceLevel = s.traceLevel

section

variable {n : Nat} {α β : Type} {p p' : Parser α}

theorem Agrees.seq {f f' : α → Parser β} (hp : Agrees n α p p') (hf : ∀ a, Agrees n β (f a) (f' a)) :
    Agrees n β (p >>= f) (p' >>= f') := by
  intro s hs
  obtain ⟨hrun, hnesting, hlevel⟩ := hp s hs
  rw [bind_run, bind_run, ← hrun]
  rcases h : p s with ⟨d | a, s₁⟩
  · rw [h] at hnesting hlevel
    exact ⟨rfl, hnesting, hlevel⟩
  · rw [h] at hnesting hlevel
    obtain ⟨hrun', hnesting', hlevel'⟩ := hf a s₁ hnesting
    exact ⟨hrun', hnesting', hlevel'.trans hlevel⟩

/-- A rule that is recorded is left as often as it is entered. -/
theorem Agrees.traced (cfg : Config) (rule : Rule) (hp : Agrees n α p p') :
    Agrees n α (traced cfg rule p) (traced cfg rule p') := by
  intro s hs
  unfold Parser.traced
  split
  · obtain ⟨hrun, hnesting, hlevel⟩ := hp
      { s with traceLevel := s.traceLevel + 1, trace := ⟨s.traceLevel, true, rule⟩ :: s.trace } hs
    refine ⟨?_, hnesting, ?_⟩
    · show (Prod.mk _ _ : Except Diagnostic α × State) = (_, _)
      rw [hrun]
    · show (p _).2.traceLevel - 1 = s.traceLevel
      rw [hlevel]
      rfl
  · exact hp s hs

/-- What is done with one more expression open is done the same way with it closed again. -/
theorem Agrees.nested (hp : Agrees (n + 1) α p p') : Agrees n α (nested p) (nested p') := by
  intro s hs
  obtain ⟨hrun, hnesting, hlevel⟩ := hp { s with nesting := s.nesting + 1 } (by rw [hs])
  refine ⟨?_, ?_, hlevel⟩
  · show (Prod.mk _ _ : Except Diagnostic α × State) = (_, _)
    rw [hrun]
  · show (p _).2.nesting - 1 = n
    rw [hnesting]
    rfl

theorem Agrees.recovering (hp : Agrees n α p p') :
    Agrees n (Option α) (recovering p) (recovering p') := by
  intro s hs
  obtain ⟨hrun, hnesting, hlevel⟩ := hp s hs
  rw [recovering_run, recovering_run, ← hrun]
  rcases h : p s with ⟨d | a, s₁⟩
  · rw [h] at hnesting hlevel
    obtain ⟨hn, hl⟩ := counts_synchronize s.braceDepth (s₁.report d)
    exact ⟨rfl, hn.trans hnesting, hl.trans hlevel⟩
  · rw [h] at hnesting hlevel
    exact ⟨rfl, hnesting, hlevel⟩

theorem Agrees.iterate {step step' : α → Parser (Option α)} [Ending step] [Ending step']
    (hstep : ∀ a, Agrees n (Option α) (step a) (step' a)) (a : α) :
    Agrees n α (iterate step a) (iterate step' a) := by
  intro s hs
  -- a round of one loop is a round of the other, so that both stop, fail or go on
  have hround : ∀ a, Parser.iterate step' a = step' a >>= again step' a := iterate_eq
  refine iterate_induction (P := fun a s r => s.nesting = n →
    r = Parser.iterate step' a s ∧ r.2.nesting = n ∧ r.2.traceLevel = s.traceLevel) ?_ ?_ ?_ a s hs
  · intro a s s' h hs
    obtain ⟨hrun, hnesting, hlevel⟩ := hstep a s hs
    rw [h] at hrun hnesting hlevel
    rw [hround, bind_run, ← hrun]
    exact ⟨rfl, hnesting, hlevel⟩
  · intro a s d s' h hs
    obtain ⟨hrun, hnesting, hlevel⟩ := hstep a s hs
    rw [h] at hrun hnesting hlevel
    rw [hround, bind_run, ← hrun]
    exact ⟨rfl, hnesting, hlevel⟩
  · intro a a₁ s s₁ r h ih hs
    obtain ⟨hrun, hnesting, hlevel⟩ := hstep a s hs
    rw [h] at hrun hnesting hlevel
    rw [hround, bind_run, ← hrun]
    obtain ⟨hrun', hnesting', hlevel'⟩ := ih hnesting
    exact ⟨hrun', hnesting', hlevel'.trans hlevel⟩

end

theorem congruence_agrees (cfg : Config) (n : Nat) : Congruence cfg cfg (Agrees n) where
  starter? := rfl
  continuer? := rfl
  give _ _ hs := ⟨rfl, hs, rfl⟩
  fail _ _ hs := ⟨rfl, hs, rfl⟩
  current _ hs := ⟨rfl, hs, rfl⟩
  next _ hs := ⟨rfl, hs, rfl⟩
  move _ hs := ⟨rfl, hs, rfl⟩
  skip s hs := ⟨rfl, (counts_skipSemicolons s).1.trans hs, (counts_skipSemicolons s).2⟩
  braces hf s hs := hf s.braceDepth s hs
  seq := Agrees.seq
  rule r := Agrees.traced cfg r
  attempt := Agrees.recovering
  loop := Agrees.iterate

/-- **Expressions leave the counts as they find them**, by induction on the room for open ones. -/
theorem agrees_expression (cfg : Config) (budget n power : Nat) :
    Agrees n Node (expression cfg budget power) (expression cfg budget power) := by
  induction budget generalizing n power with
  | zero => exact fun s hs => ⟨rfl, hs, rfl⟩
  | succ budget ih =>
    exact ((congruence_agrees cfg (n + 1)).holds_expressionWith (ih (n + 1)) power).nested

/-! ## The limit on nesting -/

section

variable (cfg : Config)

instance (power : Nat) : Moving (parseExpression cfg power) := by
  unfold parseExpression
  infer_instance

/-- What is left of the limit is known from the number of open expressions. -/
theorem agrees_parseExpression (n power : Nat) :
    Agrees n Node (expression cfg (cfg.maxNesting - n).toNat power) (parseExpression cfg power) := by
  intro s hs
  obtain ⟨-, hnesting, hlevel⟩ := agrees_expression cfg (cfg.maxNesting - n).toNat n power s hs
  refine ⟨?_, hnesting, hlevel⟩
  unfold parseExpression
  rw [get_bind_run, hs]

/-- **An expression is refused where the limit on nesting is reached**, and otherwise parsed with one
more expression open. -/
theorem parseExpression_run (power : Nat) (s : State) :
    parseExpression cfg power s =
      if cfg.maxNesting ≤ s.nesting then (.error ⟨.tooDeep cfg.maxNesting, s.cur.pos⟩, s)
      else nested (expressionWith cfg (parseExpression cfg) power) s := by
  unfold parseExpression
  rw [get_bind_run]
  split
  · rename_i hle
    have hroom : (cfg.maxNesting - s.nesting).toNat = 0 := by omega
    rw [hroom]
    rfl
  · rename_i hlt
    obtain ⟨budget, hroom⟩ : ∃ budget, (cfg.maxNesting - s.nesting).toNat = budget + 1 :=
      ⟨(cfg.maxNesting - s.nesting).toNat - 1, by omega⟩
    -- one more open expression leaves one less to open
    have hbudget : budget = (cfg.maxNesting - (s.nesting + 1 : Nat)).toNat := by omega
    have hinner := (congruence_agrees cfg (s.nesting + 1)).holds_expressionWith
      (agrees_parseExpression cfg (s.nesting + 1)) power
    rw [← hbudget] at hinner
    rw [hroom]
    exact (hinner.nested s rfl).1

end

/-! ## Loops without a bound -/

section

variable {α : Type}

/-- The rounds of a loop that has no bound on their number: `step` is repeated from `a` and `s` on
until it does not want to go on, or fails. -/
inductive Repeats (step : α → Parser (Option α)) : α → State → Except Diagnostic α × State → Prop
  | stop {a : α} {s s' : State} : Gives (step a) s none s' → Repeats step a s (.ok a, s')
  | fail {a : α} {s s' : State} {d : Diagnostic} : Fails (step a) s d s' →
      Repeats step a s (.error d, s')
  | again {a a₁ : α} {s s₁ : State} {r : Except Diagnostic α × State} :
      Gives (step a) s (some a₁) s₁ → Repeats step a₁ s₁ r → Repeats step a s r

/-- A loop whose rounds use up tokens ends by itself, and not by its bound. -/
theorem repeats_iterate (step : α → Parser (Option α)) [Ending step] (a : α) (s : State) :
    Repeats step a s (iterate step a s) :=
  iterate_induction (P := Repeats step) (fun _ _ _ => .stop) (fun _ _ _ _ => .fail)
    (fun _ _ _ _ _ => .again) a s

end

/-- Why a parse ends: the expression inside another one is parsed with one more of them open, below
the limit on nesting, and each of the five loops comes to a round that ends it. -/
structure Terminates (cfg : Config) : Prop where
  expression : ∀ power s, parseExpression cfg power s =
    if cfg.maxNesting ≤ s.nesting then (.error ⟨.tooDeep cfg.maxNesting, s.cur.pos⟩, s)
    else nested (expressionWith cfg (parseExpression cfg) power) s
  program : ∀ ss s, Repeats (programStep cfg (parseExpression cfg)) ss s
    (iterate (programStep cfg (parseExpression cfg)) ss s)
  block : ∀ depth ss s, Repeats (blockStep cfg (parseExpression cfg) depth) ss s
    (iterate (blockStep cfg (parseExpression cfg) depth) ss s)
  extension : ∀ power left s, Repeats (extendStep cfg (parseExpression cfg) power) left s
    (iterate (extendStep cfg (parseExpression cfg) power) left s)
  arguments : ∀ args s, Repeats (argumentsStep (parseExpression cfg)) args s
    (iterate (argumentsStep (parseExpression cfg)) args s)
  parameters : ∀ names s, Repeats parametersStep names s (iterate parametersStep names s)

theorem terminates (cfg : Config) : Terminates cfg where
  expression := parseExpression_run cfg
  program := repeats_iterate _
  block _ := repeats_iterate _
  extension _ := repeats_iterate _
  arguments := repeats_iterate _
  parameters := repeats_iterate _

/-! ## What was read -/

/-- The tokens `consumed` of `ts` were read so far: the current token is the last of them, unless
there are no more, and their braces make up the brace depth. -/
structure Consumed (ts consumed : List Token) (s : State) : Prop where
  tokens : ts = consumed ++ s.rest
  cur : consumed.getLast? = some s.cur ∨ s.rest = []
  braceDepth : s.braceDepth =
    consumed.countP (·.kind == .lbrace) - consumed.countP (·.kind == .rbrace)

theorem tally_append (ts us : List Token) : tally (ts ++ us) = tally ts + tally us := by
  induction ts with
  | nil => exact (Int.zero_add _).symm
  | cons t ts ih => rw [List.cons_append, tally, tally, ih, Int.add_assoc]

theorem Consumed.advance {ts consumed : List Token} {s : State} (h : Consumed ts consumed s) :
    ∃ consumed, Consumed ts consumed s.advance := by
  have hdepth := h.braceDepth
  rw [← tally_eq_count] at hdepth
  cases hr : s.rest with
  | nil =>
    refine ⟨consumed, ?_, .inr ?_, ?_⟩
    · rw [h.tokens, State.advance, hr, List.tail_nil]
    · rw [State.advance, hr, List.tail_nil]
    · rw [← tally_eq_count, ← hdepth, braceDepth_advance, State.peek, hr]
      exact Int.add_zero _
  | cons u us =>
    have hpeek : s.peek = u := by rw [State.peek, hr, List.headD_cons]
    refine ⟨consumed ++ [u], ?_, .inl ?_, ?_⟩
    · rw [h.tokens, State.advance, hr, List.tail_cons, List.append_assoc]
      rfl
    · rw [List.getLast?_append, State.advance, hpeek]
      rfl
    · rw [← tally_eq_count, tally_append, ← hdepth, braceDepth_advance, hpeek]
      exact congrArg (s.braceDepth + ·) (Int.add_zero _).symm

/-- **Whatever a parse does, it has read the tokens up to the current one.** -/
theorem Moves.consumed {ts : List Token} {s : State} (h : Moves (State.ofTokens ts) s) :
    ∃ consumed, Consumed ts consumed s := by
  induction h with
  | refl =>
    cases ts with
    | nil => exact ⟨[], rfl, .inr rfl, rfl⟩
    | cons t ts =>
      refine ⟨[t], rfl, .inl rfl, ?_⟩
      rw [← tally_eq_count]
      exact (Int.add_zero _).symm
  | advance _ ih =>
    obtain ⟨_, hconsumed⟩ := ih
    exact hconsumed.advance
  | report _ _ ih =>
    obtain ⟨consumed, hconsumed⟩ := ih
    exact ⟨consumed, hconsumed.tokens, hconsumed.cur, hconsumed.braceDepth⟩
  | count _ _ _ _ ih =>
    obtain ⟨consumed, hconsumed⟩ := ih
    exact ⟨consumed, hconsumed.tokens, hconsumed.cur, hconsumed.braceDepth⟩

/-! ## Statements and programs -/

/-- A program ends at the end of the text only, and no diagnostic gets out of it. -/
theorem Repeats.program {cfg : Config} {e : Nat → Parser Node} {ss : List Node} {s : State}
    {r : Except Diagnostic (List Node) × State} (h : Repeats (programStep cfg e) ss s r) :
    ∃ ss' s', r = (.ok ss', s') ∧ s'.cur.kind = .eof := by
  induction h with
  | @stop ss s s' hstep =>
    rw [Gives, programStep_run] at hstep
    split at hstep
    · rename_i hk
      cases hstep
      exact ⟨ss, s, rfl, hk⟩
    · split at hstep <;> cases hstep
  | @fail ss s s' d hstep =>
    rw [Fails, programStep_run] at hstep
    split at hstep
    · cases hstep
    · split at hstep <;> cases hstep
  | again _ _ ih => exact ih

/-- A statement is given, or it fails and is reported; the counts are the same after it. -/
theorem statement_restores (cfg : Config) (s : State) :
    ∃ o s', statement cfg (parseExpression cfg) s = (.ok o, s') ∧
      s'.nesting = s.nesting ∧ s'.traceLevel = s.traceLevel ∧
      (o = none → s.errors.length < s'.errors.length) := by
  have hagrees := (congruence_agrees cfg s.nesting).holds_statement
    (agrees_parseExpression cfg s.nesting) s rfl
  obtain ⟨hrun, hnesting, hlevel⟩ := hagrees
  rw [hrun] at hnesting hlevel
  have hmoves := Moving.moves (p := bareStatement cfg (parseExpression cfg)) s
  rw [statement_eq_recovering, recovering_run] at hnesting hlevel ⊢
  rcases h : bareStatement cfg (parseExpression cfg) s with ⟨d | n, s₁⟩
  · rw [h] at hnesting hlevel hmoves
    refine ⟨_, _, rfl, hnesting, hlevel, fun _ => ?_⟩
    -- the diagnostic is added, and none is taken back before or behind it
    have hbefore : s.errors.length ≤ s₁.errors.length := hmoves.errors_grow.length_le
    have hreport : Moves (s₁.report d) (s₁.report d) := .refl
    have hafter := (hreport.synchronize s.braceDepth).errors_grow.length_le
    have hone : (s₁.report d).errors.length = s₁.errors.length + 1 := List.length_append
    exact Nat.lt_of_lt_of_le (by omega) hafter
  · rw [h] at hnesting hlevel
    exact ⟨_, _, rfl, hnesting, hlevel, fun hn => by cases hn⟩

/-- The parser of programs is the one for the expressions that check the limit themselves. -/
theorem parseProgram_run (cfg : Config) (ts : List Token) :
    parseProgram cfg (State.ofTokens ts) =
      programWith cfg (parseExpression cfg) (State.ofTokens ts) ∧
    (parseProgram cfg (State.ofTokens ts)).2.nesting = 0 ∧
    (parseProgram cfg (State.ofTokens ts)).2.traceLevel = 0 := by
  have hagrees := agrees_parseExpression cfg 0
  rw [Int.natCast_zero, Int.sub_zero] at hagrees
  rw [parseProgram_ofTokens]
  exact (congruence_agrees cfg 0).holds_programWith hagrees (State.ofTokens ts) rfl

/-- **Parsing always ends, and restores what it counts.**

For all tokens, with the end of the text anywhere among them, and every limit on nesting, no loop of
a parse is cut short and every expression inside another one is below the limit. The program comes
out at the end of the text, with no expression and no rule open, and the brace depth is that of the
tokens read. A statement leaves the counts as it finds them, also when it fails and is reported. -/
theorem parse_restores (cfg : Config) (ts : List Token) :
    Terminates cfg ∧
    (∃ ss s consumed,
      Repeats (programStep cfg (parseExpression cfg)) [] (State.ofTokens ts) (.ok ss, s) ∧
      parseProgram cfg (State.ofTokens ts) = (.ok (.program .start ss), s) ∧
      s.cur.kind = .eof ∧ s.nesting = 0 ∧ s.traceLevel = 0 ∧ Consumed ts consumed s) ∧
    ∀ s, ∃ o s', statement cfg (parseExpression cfg) s = (.ok o, s') ∧
      s'.nesting = s.nesting ∧ s'.traceLevel = s.traceLevel ∧
      (o = none → s.errors.length < s'.errors.length) := by
  refine ⟨terminates cfg, ?_, statement_restores cfg⟩
  -- the loop over statements stops by itself, which it does at the end of the text only
  have hloop := (terminates cfg).program [] (State.ofTokens ts)
  obtain ⟨ss, s, hgives, hend⟩ := hloop.program
  rw [hgives] at hloop
  obtain ⟨hparse, hnesting, hlevel⟩ := parseProgram_run cfg ts
  have hprogram : programWith cfg (parseExpression cfg) (State.ofTokens ts) =
      (.ok (.program .start ss), s) := by
    rw [programWith, bind_run, hgives]
    rfl
  rw [hprogram] at hparse
  rw [hparse] at hnesting hlevel
  have hmoves := Moving.moves (p := iterate (programStep cfg (parseExpression cfg)) [])
    (State.ofTokens ts)
  rw [hgives] at hmoves
  obtain ⟨consumed, hconsumed⟩ := hmoves.consumed
  exact ⟨ss, s, consumed, hloop, hparse, hend, hnesting, hlevel, hconsumed⟩

end Scriptlet.Parser
