import Scriptlet.Proofs.Eval.Concatenation
import Scriptlet.Proofs.Token.Reflow

/-!
# Layout and letter case do not matter

A text with other white space and other comments between its tokens, and with its keywords in other
letter case, is parsed to the same program with the same complaints, and does the same when it is
run.

* `caseless`: tokens that differ in places and in the letter case of keywords are parsed alike.
* `ofSource_reflowed`: so are texts.
* `evaluate_reflowed`: the main statement.
-/

namespace Scriptlet

open Syntax (Node)
open Token (Kind Edit Respelled reflowed)
open List (Forall₂)

namespace Parser

theorem bare_of_respelled {t t' : Token} (h : Respelled t.bare t'.bare)
    (hk : t.kind.isKeyword = false) : t'.bare = t.bare :=
  Prod.ext h.1 (h.2 hk)

theorem isKeyword_of_isInfix {k : Kind} (h : k.isInfix) : k.isKeyword = false := by
  cases k <;> first | rfl | cases h

theorem isKeyword_of_unary {k : Kind} (h : starter? k = some .unary) : k.isKeyword = false := by
  cases k <;> first | rfl | cases h

/-- A token that is moved to the place of another. -/
theorem placeless_move (t t' : Token) : placeless.token t { t with pos := t'.pos } := rfl

theorem Named.placeless {n n' : Node} (h : Named (fun t t' => Respelled t.bare t'.bare) n n') :
    Named placeless.token n n' := by
  obtain ⟨ht, hk⟩ := h
  exact .of (bare_of_respelled ht (by rw [hk]; rfl)) hk

/-- Tokens that differ in places and in the letter case of keywords are parsed to trees that differ
in places only: no tree keeps the text of a keyword. -/
def caseless : Correspondence where
  token t t' := Respelled t.bare t'.bare
  expression := Unmoved
  block := Unmoved
  statement := Unmoved
  kind ht := ht.1
  numeral ht hk := congrArg Prod.snd (bare_of_respelled ht (by rw [hk]; rfl))
  ended _ := ⟨rfl, fun _ => rfl⟩
  nowhere := ⟨rfl, fun _ => rfl⟩
  identifier ht hk := placeless.identifier (bare_of_respelled ht (by rw [hk]; rfl)) hk
  integer _ _ _ _ := rfl
  string ht hk := placeless.string (bare_of_respelled ht (by rw [hk]; rfl)) hk
  boolean _ _ := rfl
  unary ht hk he := placeless.unary (bare_of_respelled ht (isKeyword_of_unary hk)) hk he
  binary ht hk hl hr := placeless.binary (bare_of_respelled ht (isKeyword_of_isInfix hk)) hk hl hr
  conditional {t t' _ _ _ _ _ _} _ hc hb ho :=
    (placeless.conditional (placeless_move t t') hc hb ho :)
  function {t t' _ _ _ _} _ hns hb :=
    (placeless.function (placeless_move t t') (hns.imp fun _ _ => .placeless) hb :)
  call {t t' _ _ _ _} _ hf hes := (placeless.call (placeless_move t t') hf hes :)
  braced {t t' _ _} _ hss := (placeless.braced (placeless_move t t') hss :)
  binding {t t' _ _ _ _} _ hn he := (placeless.binding (placeless_move t t') hn.placeless he :)
  returning {t t' _ _} _ he := (placeless.returning (placeless_move t t') he :)
  evaluated {t t' _ _} _ he := (placeless.evaluated (placeless_move t t') he :)

theorem respelled_scan (edits : List Edit) (source : String) :
    Forall₂ caseless.token (Token.scan source) (Token.scan (reflowed edits source)) := by
  have hlexemes := Token.lexemes_reflow edits source.toList
  have hend : Forall₂ Respelled [(Kind.eof, "")] [(.eof, "")] :=
    .cons ⟨rfl, fun _ => rfl⟩ .nil
  have hbare : Forall₂ Respelled (Token.lexemes source.toList ++ [(.eof, "")])
      (Token.lexemes (Token.reflow edits source.toList) ++ [(.eof, "")]) :=
    List.rel_append hlexemes hend
  have htext : (reflowed edits source).toList = Token.reflow edits source.toList :=
    String.toList_ofList
  rw [← htext, ← Token.map_bare_scan, ← Token.map_bare_scan, List.forall₂_map_left_iff,
    List.forall₂_map_right_iff] at hbare
  exact hbare

/-- **Texts that differ in layout and in the letter case of keywords are parsed alike.** -/
theorem ofSource_reflowed (cfg : Config) (edits : List Edit) (source : String) :
    (Parsed.ofSource (reflowed edits source) cfg).program.unplaced =
        (Parsed.ofSource source cfg).program.unplaced ∧
      (Parsed.ofSource (reflowed edits source) cfg).errors.map Diagnostic.complaint =
        (Parsed.ofSource source cfg).errors.map Diagnostic.complaint := by
  obtain ⟨ss, ss', hss, hss', hsame, hcomplaints⟩ :=
    caseless.ofTokens cfg (respelled_scan edits source)
  refine ⟨?_, hcomplaints⟩
  unfold Parsed.ofSource
  rw [hss, hss', Node.unplaced, Node.unplaced, Unmoved.all hsame]

end Parser

namespace Eval

/-- **Layout and letter case do not matter.** White space and whole comments may be put wherever a
token of a text begins or ends, except behind a string that is never closed, and keywords may change
their letter case. The program stays the same but for its places, and so do the complaints. A run in
a new global scope comes to a value that looks the same, prints the same lines and leaves global
bindings that look the same. -/
theorem evaluate_reflowed (edits : List Edit) (source : String) (cfg : Parser.Config)
    (maxDepth : Nat) :
    let parsed := Parsed.ofSource source cfg
    let parsed' := Parsed.ofSource (reflowed edits source) cfg
    let run := evaluate maxDepth parsed.program Machine.globalScope .initial
    let run' := evaluate maxDepth parsed'.program Machine.globalScope .initial
    parsed.program.same parsed'.program ∧
      parsed'.errors.map Diagnostic.complaint = parsed.errors.map Diagnostic.complaint ∧
      (∃ v v', run.1 = .ok v ∧ run'.1 = .ok v' ∧ v.Alike v') ∧
      run'.2.printed = run.2.printed ∧
      (run'.2.heap.scope Machine.globalScope).shown =
        (run.2.heap.scope Machine.globalScope).shown := by
  intro parsed parsed' run run'
  obtain ⟨hprogram, hcomplaints⟩ := Parser.ofSource_reflowed cfg edits source
  refine ⟨Syntax.Node.same_of_unplaced _ _ hprogram, hcomplaints, ?_⟩
  -- the run of a parsed text comes to a value, and a run without places cannot tell the two apart
  have hresting : Machine.initial.Resting := Reached.start.addOutermost.resting
  have hmatched : Matched .initial .initial := ⟨rfl, hresting.heap⟩
  have hself : parsed.program.Within (Parsed.ofSource source cfg).program := .self
  obtain ⟨v, hv⟩ := exists_value_of_parsed maxDepth maxDepth cfg [] hself
    (show Machine.globalScope < Machine.initial.heap.nextId from Nat.one_pos)
  have hrun : run = (.ok v, run.2) := Prod.ext hv rfl
  obtain ⟨v', m', hrun', hview, hm'⟩ := hmatched.run hprogram hrun
  have hrun' : run' = (.ok v', m') := hrun'
  rw [hrun']
  refine ⟨⟨v, v', hv, rfl, Value.alike_of_view hview⟩, hm'.printed, ?_⟩
  rw [← Scope.shown_view id, hm'.scope, Scope.shown_view]

/-- Layout around a keyword in other letter case, and nothing behind a string that is not closed. -/
example : reflowed
    [{ spelling := ['I', 'f'] }, { behind := ['\t'], ahead := ['#', '(', '\n'] }, {},
      { behind := ['\n'] }, {}, { ahead := [' '] }, { ahead := [' '] }]
    "if(x) #a\n\x7b\"b" = "If\t#(\n(x\n) #a\n\x7b \"b" := by
  decide +kernel

end Eval

end Scriptlet
