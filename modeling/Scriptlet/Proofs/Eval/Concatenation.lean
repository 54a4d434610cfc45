import Scriptlet.Proofs.Eval.Match
import Scriptlet.Proofs.Eval.Meaning
import Scriptlet.Proofs.Parser.Sequence

/-!
# Texts one after the other, and as one text

Two texts that are run one after the other in one global scope do what they do as one text, with a
line feed between them. The first has to end where a statement does and to run to its last
statement.

* `runsThrough`: no statement comes to a fault or to a value on its way back.
* `runStatements_append`: then the statements behind run from where these end.
* `evaluate_append`: so do programs, each of them in a run of its own.
* `evaluate_append_line`: the main statement, for texts.
-/

namespace Scriptlet

open Syntax (Node)

/-- What a scope binds, as one sees it: the names, and the types and the texts of the values. -/
def Scope.shown (s : Scope) : List (String × ValueType × String) :=
  s.bindings.map fun b => (b.1, b.2.type, b.2.inspect)

theorem Scope.shown_view (ρ : ScopeId → ScopeId) (s : Scope) : (s.view ρ).shown = s.shown := by
  simp [shown, view, Function.comp_def]

namespace Eval

/-! ## Statements -/

/-- Whether statements run to the last of them: none comes to a fault or to a value on its way
back. -/
def runsThrough (eval : Node → Eval Value) : List Node → Machine → Bool
  | [], _ => true
  | s :: ss, m =>
    match eval s m with
    | (.ok v, m₁) => !v.stops && runsThrough eval ss m₁
    | (.error _, _) => false

/-- The value of a statement of a program. The program itself takes one of the active nodes. -/
def evalStatement (maxDepth : Nat) (s : Node) : Eval Value :=
  evalNode maxDepth (nestingLimit maxDepth - 1) s Machine.globalScope

/-- Whether a program runs to its last statement. -/
def runsToEnd (maxDepth : Nat) (program : Node) (m : Machine) : Bool :=
  runsThrough (evalStatement maxDepth) program.statements { m with nesting := m.nesting + 1 }

variable {eval : Node → Eval Value} {ss rest : List Node} {m : Machine} {maxDepth : Nat}

/-- **Statements that run through are followed by those behind them.** -/
theorem runStatements_append (h : runsThrough eval ss m) (last : Value) :
    ∃ v m₁, runStatements eval last ss m = (.ok v, m₁) ∧
      ∀ rest, runStatements eval last (ss ++ rest) m = runStatements eval v rest m₁ := by
  induction ss generalizing last m with
  | nil => exact ⟨last, m, rfl, fun _ => rfl⟩
  | cons s ss ih =>
    unfold runsThrough at h
    rcases hs : eval s m with ⟨err | v, m₁⟩ <;> rw [hs] at h
    · cases h
    · obtain ⟨hgoes, hrest⟩ := Bool.and_eq_true_iff.1 h
      have hstops : ¬ v.stops = true := by simpa using hgoes
      -- a first statement that does not stop hands on to the others, whatever they are
      have hcons : ∀ ss', runStatements eval last (s :: ss') m = runStatements eval v ss' m₁ := by
        intro ss'
        rw [runStatements, bind_run, hs]
        simp only [if_neg hstops]
      obtain ⟨w, m₂, hrun, happend⟩ := ih hrest v
      refine ⟨w, m₂, (hcons ss).trans hrun, fun rest => ?_⟩
      rw [List.cons_append, hcons, happend]

/-! ## Programs -/

/-- A program runs its statements as one more active node. -/
theorem evaluate_program (hm : m.Resting) {r : Except Meaningless Value × Machine}
    (hrun : runStatements (evalStatement maxDepth) .null ss { m with nesting := m.nesting + 1 } =
      r) :
    evaluate maxDepth (.program .start ss) Machine.globalScope m =
      (r.1.map Value.arrived, { r.2 with nesting := r.2.nesting - 1 }) := by
  have hroom : nestingLimit maxDepth - m.nesting = nestingLimit maxDepth - 1 + 1 := by
    rw [hm.nesting]
    unfold nestingLimit
    omega
  show evalNode maxDepth (nestingLimit maxDepth - m.nesting) _ Machine.globalScope m = _
  rw [hroom]
  show nested (runStatements (evalStatement maxDepth) .null ss >>= fun v => pure v.arrived) m = _
  unfold nested ExceptT.mk
  dsimp only
  rw [bind_run, hrun]
  rcases r with ⟨err | v, m₁⟩ <;> rfl

/-- After statements as many nodes are active as before. -/
theorem nesting_of_runStatements (hm : m.heap.Faultless)
    {r : Except Meaningless Value × Machine}
    (hrun : runStatements (evalStatement maxDepth) .null ss m = r) : r.2.nesting = m.nesting := by
  have hnull : Value.null.faultless := rfl
  have hstatement : ∀ e, AgreesOnValue m.depth (evalStatement maxDepth e)
      (Walk.node maxDepth (nestingLimit maxDepth - 1) m.depth e Machine.globalScope) :=
    fun e => agrees_evalNode maxDepth (nestingLimit maxDepth - 1) m.depth e Machine.globalScope
  have hagrees := agrees_runStatements hstatement ss hnull
  rw [← hrun, (hagrees m rfl hm).1]
  rfl

/-- **Programs one after the other do what they do as one program.** -/
theorem evaluate_append (hm : m.Resting) (hend : runsToEnd maxDepth (.program .start ss) m)
    (hrest : rest ≠ []) :
    evaluate maxDepth (.program .start (ss ++ rest)) Machine.globalScope m =
      evaluate maxDepth (.program .start rest) Machine.globalScope
        (evaluate maxDepth (.program .start ss) Machine.globalScope m).2 := by
  have hthrough : runsThrough (evalStatement maxDepth) ss { m with nesting := m.nesting + 1 } :=
    hend
  obtain ⟨v, m₁, hfirst, happend⟩ := runStatements_append hthrough .null
  have hnesting : m₁.nesting = m.nesting + 1 :=
    nesting_of_runStatements (m := { m with nesting := m.nesting + 1 }) hm.heap hfirst
  have hm₁ := (hm.evaluate maxDepth (.program .start ss) Machine.globalScope).2
  rw [evaluate_program hm hfirst] at hm₁ ⊢
  -- the second run makes its program active, where the first has just left one
  have hagain : { m₁ with nesting := m₁.nesting - 1 + 1 } = m₁ := by
    rw [Nat.sub_add_cancel (by omega)]
  have hsecond : runStatements (evalStatement maxDepth) .null rest
      { m₁ with nesting := m₁.nesting - 1 + 1 } =
      runStatements (evalStatement maxDepth) v rest m₁ := by
    -- what came before has no part in a value if there is a statement
    obtain ⟨s, others, rfl⟩ := List.exists_cons_of_ne_nil hrest
    rw [hagain]
    rfl
  rw [evaluate_program hm (happend rest), evaluate_program hm₁ hsecond]

/-! ## Texts -/

/-- **Two texts one after the other do what they do as one text.** If both have no diagnostics, and
the first closes all its braces, ends on a semicolon and runs to its last statement, then the second
gives after it what both give together with a line feed in between: a value that looks the same, the
same lines, and global bindings that look the same. -/
theorem evaluate_append_line (maxDepth : Nat) (cfg : Parser.Config) {a b : String}
    (ha : (Parsed.ofSource a cfg).errors = []) (hb : (Parsed.ofSource b cfg).errors = [])
    (hbraces : Parser.balanced (Token.scan a))
    (hlast : (Token.scan a).dropLast.getLast?.map Token.kind = some .semicolon)
    (hsome : (Parsed.ofSource b cfg).program.statements ≠ [])
    (hend : runsToEnd maxDepth (Parsed.ofSource a cfg).program .initial) :
    let first := evaluate maxDepth (Parsed.ofSource a cfg).program Machine.globalScope .initial
    let second := evaluate maxDepth (Parsed.ofSource b cfg).program Machine.globalScope first.2
    let whole := evaluate maxDepth (Parsed.ofSource (a ++ "\n" ++ b) cfg).program
      Machine.globalScope .initial
    (Parsed.ofSource (a ++ "\n" ++ b) cfg).errors = [] ∧
      (∃ v v', second.1 = .ok v ∧ whole.1 = .ok v' ∧ v.Alike v') ∧
      whole.2.printed = second.2.printed ∧
      (whole.2.heap.scope Machine.globalScope).shown =
        (second.2.heap.scope Machine.globalScope).shown := by
  intro first second whole
  obtain ⟨herrors, hprogram⟩ := Parser.ofSource_append_line cfg ha hb hbraces hlast
  refine ⟨herrors, ?_⟩
  have hresting : Machine.initial.Resting := Reached.start.addOutermost.resting
  have hfirst := Parser.program_ofSource cfg a
  have hsecond := Parser.program_ofSource cfg b
  -- as trees the two programs can be joined, and then the run of the second has a value
  rw [hfirst] at hend
  have hjoined := evaluate_append hresting hend hsome
  rw [← hfirst, ← hsecond] at hjoined
  have hgrows := (holds_after_sources maxDepth cfg [a]).2
  have hglobal : Machine.globalScope < first.2.heap.nextId :=
    Nat.lt_of_lt_of_le Nat.zero_lt_one hgrows.size
  obtain ⟨v, hv⟩ := exists_value_of_parsed maxDepth maxDepth cfg [a] .self hglobal
  have hrun := hjoined.trans (Prod.ext hv rfl : second = (.ok v, second.2))
  -- the text of both is parsed to the joined program, but for its places
  have hmatched : Matched .initial .initial := ⟨rfl, hresting.heap⟩
  obtain ⟨v', m', hwhole, hview, hm'⟩ := hmatched.run hprogram hrun
  have hwhole : whole = (.ok v', m') := hwhole
  rw [hwhole]
  refine ⟨⟨v, v', hv, rfl, Value.alike_of_view hview⟩, hm'.printed, ?_⟩
  rw [← Scope.shown_view id, hm'.scope, Scope.shown_view]

/-- Binds a function that prints, and a value of it, and ends in a comment. -/
def definesFunction : String := "let f = fn(x) { puts(x); x + 1 }; let y = f(1); # end"

/-- Calls the function, with a parenthesis first that would extend an expression before it. -/
def usesFunction : String := "(f)(y)"

theorem evaluate_definesFunction_usesFunction :
    runsToEnd 5 (Parsed.ofSource definesFunction {}).program .initial ∧
      let first := evaluate 5 (Parsed.ofSource definesFunction {}).program Machine.globalScope
        .initial
      let second := evaluate 5 (Parsed.ofSource usesFunction {}).program Machine.globalScope first.2
      let whole := evaluate 5 (Parsed.ofSource (definesFunction ++ "\n" ++ usesFunction) {}).program
        Machine.globalScope .initial
      ((Parsed.ofSource (definesFunction ++ "\n" ++ usesFunction) {}).errors = [] ∧
        (∃ v v', second.1 = .ok v ∧ whole.1 = .ok v' ∧ v.Alike v') ∧
        whole.2.printed = second.2.printed ∧
        (whole.2.heap.scope Machine.globalScope).shown =
          (second.2.heap.scope Machine.globalScope).shown) ∧
      second.1.toOption.map Value.inspect = some "3" ∧
      second.2.printed.map Line.text = ["2", "1"] := by
  have htext : definesFunction.toList = _ := String.toList_ofList
  have hend : runsToEnd 5 (Parsed.ofSource definesFunction {}).program .initial := by
    rw [Parsed.ofSource, Token.scan_of_toList htext]
    decide +kernel
  refine ⟨hend, evaluate_append_line 5 {} ?_ ?_ ?_ ?_ ?_ hend, ?_⟩
  all_goals
    simp only [Parsed.ofSource, Token.scan_of_toList htext]
    decide +kernel

end Eval

end Scriptlet
