import Scriptlet.Proofs.Parser.Congruence
import Scriptlet.Proofs.Parser.Sequence

/-!
# The trace of a parse

A trace shows where each rule is entered and left. It changes nothing of the parse, and whatever the
tokens are, every rule is left as often as it is entered, after the rules inside it: a diagnostic
that gets out of several rules leaves them one by one.

* `Closes`: the lines of a trace from where some rules are open to where none is.
* `Records`: a parser does what another does without a trace, and its lines close what they open.
* `records_expression`: expressions do so with a trace and without.
* `trace_closes`: the main statement, for whole parses.
-/

namespace Scriptlet.Parser

open Syntax (Node)
open Token (Kind)

/-! ## Lines that close what they open -/

/-- The tabs in front of a line, one for every open rule. -/
def indent (level : Nat) : String := String.ofList (List.replicate level '\t')

/-- The lines of a trace from a moment at which the given rules are open, the innermost first, to
the moment at which all are left. A line has a tab for every rule that is open around its own. -/
inductive Closes : List Rule → List String → Prop
  | done : Closes [] []
  | enter {rules : List Rule} {lines : List String} (r : Rule) :
      Closes (r :: rules) lines →
      Closes rules ((indent rules.length ++ "BEGIN " ++ r.name) :: lines)
  | leave {rules : List Rule} {lines : List String} (r : Rule) :
      Closes rules lines →
      Closes (r :: rules) ((indent rules.length ++ "END " ++ r.name) :: lines)

/-- With `level` rules open, the lines leave all rules that they enter, and no others. -/
def Closed (level : Nat) (ls : List TraceLine) : Prop :=
  ∀ rules lines, rules.length = level → Closes rules lines →
    Closes rules (ls.map TraceLine.render ++ lines)

theorem closed_nil (level : Nat) : Closed level [] := fun _ _ _ h => h

theorem Closed.append {level : Nat} {ls ls' : List TraceLine} (h : Closed level ls)
    (h' : Closed level ls') : Closed level (ls ++ ls') := by
  intro rules lines hlevel hcloses
  rw [List.map_append, List.append_assoc]
  exact h rules _ hlevel (h' rules lines hlevel hcloses)

/-- A rule around lines is entered before and left after them. -/
theorem Closed.rule {level : Nat} {ls : List TraceLine} (h : Closed (level + 1) ls) (r : Rule) :
    Closed level (⟨level, true, r⟩ :: ls ++ [⟨level, false, r⟩]) := by
  rintro rules lines rfl hcloses
  have hinside := h (r :: rules) _ rfl (.leave r hcloses)
  rw [List.map_append, List.append_assoc]
  exact .enter r hinside

/-! ## Parsers with a trace -/

/-- The state without what was recorded. -/
def State.untraced (s : State) : State := { s with traceLevel := 0, trace := [] }

theorem skipSemicolons_untraced (s : State) :
    s.untraced.skipSemicolons = s.skipSemicolons.untraced ∧
      s.skipSemicolons.traceLevel = s.traceLevel ∧ s.skipSemicolons.trace = s.trace := by
  fun_induction State.skipSemicolons s with
  | case1 s hk ih =>
    rw [State.skipSemicolons, dif_pos (show s.untraced.peek.kind = .semicolon from hk)]
    exact ih
  | case2 s hk =>
    rw [State.skipSemicolons, dif_neg (show ¬ s.untraced.peek.kind = .semicolon from hk)]
    exact ⟨rfl, rfl, rfl⟩

theorem synchronize_untraced (depth : Int) (s : State) :
    s.untraced.synchronize depth = (s.synchronize depth).untraced ∧
      (s.synchronize depth).traceLevel = s.traceLevel ∧
      (s.synchronize depth).trace = s.trace := by
  fun_induction State.synchronize depth s with
  | case1 s hsettled =>
    rw [State.synchronize, dif_pos (show s.untraced.settled depth from hsettled)]
    exact ⟨rfl, rfl, rfl⟩
  | case2 s hsettled ih =>
    rw [State.synchronize, dif_neg (show ¬ s.untraced.settled depth from hsettled)]
    exact ih

/-- What `p` comes to from `s` is what `p'` comes to without a trace, and the lines that it records
on the way close what they open. -/
def Records (α : Type) (p p' : Parser α) : Prop :=
  ∀ s : State, p' s.untraced = ((p s).1, (p s).2.untraced) ∧
    (p s).2.traceLevel = s.traceLevel ∧
    ∃ ls, Closed s.traceLevel ls ∧ (p s).2.trace = ls.reverse ++ s.trace

section

variable {α β : Type} {p p' : Parser α}

/-- What records nothing. -/
theorem records_nothing (h : ∀ s : State, p' s.untraced = ((p s).1, (p s).2.untraced) ∧
    (p s).2.traceLevel = s.traceLevel ∧ (p s).2.trace = s.trace) : Records α p p' := by
  intro s
  obtain ⟨hrun, hlevel, htrace⟩ := h s
  exact ⟨hrun, hlevel, [], closed_nil _, htrace⟩

theorem Records.seq {f f' : α → Parser β} (hp : Records α p p') (hf : ∀ a, Records β (f a) (f' a)) :
    Records β (p >>= f) (p' >>= f') := by
  intro s
  obtain ⟨hrun, hlevel, ls, hclosed, htrace⟩ := hp s
  rw [bind_run, bind_run, hrun]
  rcases h : p s with ⟨d | a, s₁⟩
  · rw [h] at hlevel htrace
    exact ⟨rfl, hlevel, ls, hclosed, htrace⟩
  · rw [h] at hlevel htrace
    obtain ⟨hrun', hlevel', ls', hclosed', htrace'⟩ := hf a s₁
    refine ⟨hrun', hlevel'.trans hlevel, ls ++ ls', hclosed.append (hlevel ▸ hclosed'), ?_⟩
    rw [htrace', htrace, List.reverse_append, List.append_assoc]

/-- A rule is left after what it holds, also when that fails. -/
theorem Records.traced {cfg cfg' : Config} (hcfg : cfg'.trace = false) (r : Rule)
    (hp : Records α p p') : Records α (traced cfg r p) (traced cfg' r p') := by
  have hplain : Parser.traced cfg' r p' = p' := by
    rw [Parser.traced, hcfg]
    rfl
  rw [hplain]
  unfold Parser.traced
  split
  · intro s
    obtain ⟨hrun, hlevel, ls, hclosed, htrace⟩ := hp
      { s with traceLevel := s.traceLevel + 1, trace := ⟨s.traceLevel, true, r⟩ :: s.trace }
    refine ⟨hrun, ?_, _, hclosed.rule r, ?_⟩
    · exact congrArg (· - 1) hlevel
    · show (⟨(p _).2.traceLevel - 1, false, r⟩ : TraceLine) :: (p _).2.trace = _
      rw [hlevel, htrace]
      simp
  · exact hp

theorem Records.nested (hp : Records α p p') : Records α (nested p) (nested p') := by
  intro s
  obtain ⟨hrun, hlevel, ls, hclosed, htrace⟩ := hp { s with nesting := s.nesting + 1 }
  refine ⟨?_, hlevel, ls, hclosed, htrace⟩
  have hinside : p' { s.untraced with nesting := s.untraced.nesting + 1 } =
      ((p { s with nesting := s.nesting + 1 }).1,
        (p { s with nesting := s.nesting + 1 }).2.untraced) := hrun
  show (Prod.mk _ _ : Except Diagnostic α × State) = (_, _)
  rw [hinside]
  rfl

theorem Records.recovering (hp : Records α p p') :
    Records (Option α) (recovering p) (recovering p') := by
  intro s
  obtain ⟨hrun, hlevel, ls, hclosed, htrace⟩ := hp s
  rw [recovering_run, recovering_run, hrun]
  rcases h : p s with ⟨d | a, s₁⟩
  · rw [h] at hlevel htrace
    obtain ⟨hsync, hlevel', htrace'⟩ := synchronize_untraced s.braceDepth (s₁.report d)
    exact ⟨congrArg (Prod.mk _) hsync, hlevel'.trans hlevel, ls, hclosed, htrace'.trans htrace⟩
  · rw [h] at hlevel htrace
    exact ⟨rfl, hlevel, ls, hclosed, htrace⟩

theorem Records.iterate {step step' : α → Parser (Option α)} [Ending step] [Ending step']
    (hstep : ∀ a, Records (Option α) (step a) (step' a)) (a : α) :
    Records α (iterate step a) (iterate step' a) := by
  intro s
  -- a round with a trace is a round without, so that both loops stop, fail or go on
  have hround : ∀ a, Parser.iterate step' a = step' a >>= again step' a := iterate_eq
  refine iterate_induction (P := fun a s r =>
    Parser.iterate step' a s.untraced = (r.1, r.2.untraced) ∧ r.2.traceLevel = s.traceLevel ∧
    ∃ ls, Closed s.traceLevel ls ∧ r.2.trace = ls.reverse ++ s.trace) ?_ ?_ ?_ a s
  · intro a s s' h
    obtain ⟨hrun, hrest⟩ := hstep a s
    rw [h] at hrun hrest
    rw [hround, bind_run, hrun]
    exact ⟨rfl, hrest⟩
  · intro a s d s' h
    obtain ⟨hrun, hrest⟩ := hstep a s
    rw [h] at hrun hrest
    rw [hround, bind_run, hrun]
    exact ⟨rfl, hrest⟩
  · rintro a a₁ s s₁ r h ⟨hrun', hlevel', ls', hclosed', htrace'⟩
    obtain ⟨hrun, hlevel, ls, hclosed, htrace⟩ := hstep a s
    rw [h] at hrun hlevel htrace
    rw [hround, bind_run, hrun]
    refine ⟨hrun', hlevel'.trans hlevel, ls ++ ls', hclosed.append (hlevel ▸ hclosed'), ?_⟩
    rw [htrace', htrace, List.reverse_append, List.append_assoc]

end

/-- The same configuration without a trace. -/
def Config.untraced (cfg : Config) : Config := { cfg with trace := false }

theorem congruence_records (cfg : Config) : Congruence cfg cfg.untraced Records where
  starter? := rfl
  continuer? := rfl
  give _ := records_nothing fun _ => ⟨rfl, rfl, rfl⟩
  fail _ := records_nothing fun _ => ⟨rfl, rfl, rfl⟩
  current := records_nothing fun _ => ⟨rfl, rfl, rfl⟩
  next := records_nothing fun _ => ⟨rfl, rfl, rfl⟩
  move := records_nothing fun _ => ⟨rfl, rfl, rfl⟩
  skip := records_nothing fun s =>
    ⟨congrArg (Prod.mk _) (skipSemicolons_untraced s).1, (skipSemicolons_untraced s).2⟩
  braces hf s := hf s.braceDepth s
  seq := Records.seq
  rule r := Records.traced rfl r
  attempt := Records.recovering
  loop := Records.iterate

/-- **Expressions are parsed with a trace as without**, and their lines close what they open. -/
theorem records_expression (cfg : Config) (budget power : Nat) :
    Records Node (expression cfg budget power) (expression cfg.untraced budget power) := by
  induction budget generalizing power with
  | zero => exact records_nothing fun _ => ⟨rfl, rfl, rfl⟩
  | succ budget ih => exact ((congruence_records cfg).holds_expressionWith ih power).nested

/-! ## Whole parses -/

theorem traceText_eq_join (p : Parsed) :
    p.traceText = String.join ((p.trace.map TraceLine.render).map (· ++ "\n")) := by
  unfold Parsed.traceText String.join
  rw [List.map_map, List.foldl_map]
  simp only [Function.comp_apply, String.append_assoc]

section

variable (cfg : Config) (ts : List Token)

/-- A whole parse does the same without a trace, and its lines close what they open. -/
theorem ofTokens_untraced :
    (Parsed.ofTokens ts cfg.untraced).program = (Parsed.ofTokens ts cfg).program ∧
      (Parsed.ofTokens ts cfg.untraced).errors = (Parsed.ofTokens ts cfg).errors ∧
      (Parsed.ofTokens ts cfg.untraced).trace = [] ∧
      Closes [] ((Parsed.ofTokens ts cfg).trace.map TraceLine.render) := by
  obtain ⟨hrun, -, ls, hclosed, htrace⟩ := (congruence_records cfg).holds_programWith
    (records_expression cfg cfg.maxNesting.toNat) (State.ofTokens ts)
  have hcloses : Closes [] ((programWith cfg (expression cfg cfg.maxNesting.toNat)
      (State.ofTokens ts)).2.trace.reverse.map TraceLine.render) := by
    have hlines := hclosed [] [] rfl .done
    rw [List.append_nil] at hlines
    rw [htrace, List.reverse_append, List.reverse_reverse]
    exact hlines
  have hplain : programWith cfg.untraced (expression cfg.untraced cfg.untraced.maxNesting.toNat)
      (State.ofTokens ts) = _ := hrun
  unfold Parsed.ofTokens
  rw [parseProgram_ofTokens, parseProgram_ofTokens, hplain]
  generalize programWith cfg (expression cfg cfg.maxNesting.toNat) (State.ofTokens ts) = r
    at hcloses
  rcases r with ⟨d | n, s'⟩
  · exact ⟨rfl, rfl, rfl, hcloses⟩
  · exact ⟨rfl, rfl, rfl, hcloses⟩

variable {cfg ts}

theorem bareStatement_cases (e : Nat → Parser Node) (s : State) :
    bareStatement cfg e s = letStatement cfg e s ∨
      bareStatement cfg e s = returnStatement cfg e s ∨
      bareStatement cfg e s = expressionStatement cfg e s := by
  have hcur : cur s = (.ok s.cur, s) := rfl
  rw [bareStatement, bind_run, hcur]
  dsimp only
  cases s.cur.kind with
  | letKey => exact .inl rfl
  | returnKey => exact .inr (.inl rfl)
  | _ => exact .inr (.inr rfl)

/-- A statement is recorded, however it ends. -/
theorem trace_bareStatement (htrace : cfg.trace = true) (e : Nat → Parser Node) (s : State) :
    (bareStatement cfg e s).2.trace ≠ [] := by
  have htraced : ∀ (r : Rule) (p : Parser Node), (traced cfg r p s).2.trace ≠ [] := by
    intro r p
    rw [traced, if_pos htrace]
    exact List.cons_ne_nil _ _
  rcases bareStatement_cases e s with h | h | h
  · rw [h]
    exact htraced _ _
  · rw [h]
    exact htraced _ _
  · rw [h]
    exact htraced _ _

/-- A round of a program records a statement, unless the text ends there. -/
theorem trace_programStep (htrace : cfg.trace = true) (e : Nat → Parser Node) (ss : List Node)
    (s : State) :
    s.cur.kind = .eof ∧ programStep cfg e ss s = (.ok none, s) ∨
      ∃ ss' s', programStep cfg e ss s = (.ok (some ss'), s') ∧ s'.trace ≠ [] := by
  have hrecorded := trace_bareStatement htrace e s
  rw [programStep_run]
  split
  · rename_i hcur
    exact .inl ⟨hcur, rfl⟩
  right
  rcases hrun : bareStatement cfg e s with ⟨d | n, s₁⟩
  · rw [hrun] at hrecorded
    refine ⟨_, _, rfl, ?_⟩
    show ((s₁.report d).synchronize s.braceDepth).trace ≠ []
    rw [(synchronize_untraced s.braceDepth (s₁.report d)).2.2]
    exact hrecorded
  · rw [hrun] at hrecorded
    exact ⟨_, _, rfl, hrecorded⟩

/-- What was recorded is never taken back, and something is recorded unless the text ends. -/
theorem trace_program (htrace : cfg.trace = true) (e : Nat → Parser Node)
    [∀ power, Moving (e power)] (ss : List Node) (s : State)
    (h : s.cur.kind = .eof → s.trace ≠ []) : (iterate (programStep cfg e) ss s).2.trace ≠ [] := by
  refine iterate_induction (P := fun _ s r => (s.cur.kind = .eof → s.trace ≠ []) → r.2.trace ≠ [])
    ?_ ?_ ?_ ss s h
  · intro ss s s' hstop h
    rcases trace_programStep htrace e ss s with ⟨hcur, hrun⟩ | ⟨_, _, hrun, -⟩
    · cases hstop.symm.trans hrun
      exact h hcur
    · cases hstop.symm.trans hrun
  · intro ss s d s' hfails _
    rcases trace_programStep htrace e ss s with ⟨-, hrun⟩ | ⟨_, _, hrun, -⟩
    · cases hfails.symm.trans hrun
    · cases hfails.symm.trans hrun
  · intro ss ss₁ s s₁ r hround ih _
    rcases trace_programStep htrace e ss s with ⟨-, hrun⟩ | ⟨_, _, hrun, hrecorded⟩
    · cases hround.symm.trans hrun
    · cases hround.symm.trans hrun
      exact ih fun _ => hrecorded

theorem trace_eq_nil_iff (htrace : cfg.trace = true) :
    (Parsed.ofTokens ts cfg).trace = [] ↔ (State.ofTokens ts).cur.kind = .eof := by
  constructor
  · intro hnil
    obtain ⟨ss, s', hgives⟩ := exists_gives_program cfg cfg.maxNesting.toNat [] (State.ofTokens ts)
    rw [ofTokens_of_gives cfg hgives, List.reverse_eq_nil_iff] at hnil
    refine Decidable.byContradiction fun hcur => ?_
    have hrecorded := trace_program htrace (expression cfg cfg.maxNesting.toNat) []
      (State.ofTokens ts) fun hend => absurd hend hcur
    rw [hgives] at hrecorded
    exact hrecorded hnil
  · intro hend
    rw [ofTokens_of_end cfg hend]

end

/-- **A trace is well nested and changes nothing.**

For all tokens, every limit on nesting and whatever else the parse is given: with a trace it gives
the program and the diagnostics that it gives without one. The text of the trace consists of lines
that enter and leave rules, each rule after those inside it, with a tab for every rule around; all
are left at the end, also those that a diagnostic got out of. There are lines unless the text ends
at once, and none without a trace. -/
theorem trace_closes (ts : List Token) (cfg : Config) :
    let traced := Parsed.ofTokens ts { cfg with trace := true }
    let plain := Parsed.ofTokens ts { cfg with trace := false }
    traced.program = plain.program ∧ traced.errors = plain.errors ∧ plain.traceText = "" ∧
      ∃ lines, traced.traceText = String.join (lines.map (· ++ "\n")) ∧ Closes [] lines ∧
        (lines = [] ↔ (State.ofTokens ts).cur.kind = .eof) := by
  obtain ⟨hprogram, herrors, hplain, hcloses⟩ := ofTokens_untraced { cfg with trace := true } ts
  refine ⟨hprogram.symm, herrors.symm, ?_, _, traceText_eq_join _, hcloses, ?_⟩
  · show List.foldl _ _ (Parsed.ofTokens ts { cfg with trace := false }).trace = ""
    rw [show (Parsed.ofTokens ts { cfg with trace := false }).trace = [] from hplain]
    rfl
  · rw [List.map_eq_nil_iff]
    exact trace_eq_nil_iff rfl

end Scriptlet.Parser
