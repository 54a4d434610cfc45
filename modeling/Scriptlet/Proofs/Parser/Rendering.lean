import Scriptlet.Proofs.Parser.Correspondence
import Scriptlet.Proofs.Syntax.Unique
import Scriptlet.Proofs.Token.Written

/-!
# What is parsed is told by its rendering

Whatever a parser returns is a tree of the grammar, also when malformed statements were dropped on
the way. The rendering of such a tree is that of no other, so two texts whose programs are rendered
alike have the same program.

* `shaping`: a text beside itself, whose tokens are written as their kinds say.
* `shaped_ofSource`: what is parsed is a program of the grammar.
* `same_of_render_eq`: the main statement.
-/

namespace Scriptlet.Parser

open Syntax (Node operatorKind binaryOperators unaryOperators)
open Syntax.Node (every everyOf everyIn shaped isExpression isBlock isStatement isIdentifier)
open List (Forall₂)

/-- A tree of the grammar that is of a sort, and that tree again. -/
def Shapes (sort : Node → Bool) (n n' : Node) : Prop := n' = n ∧ sort n ∧ n.every shaped

/-- A token that is written as its kind says, and that token again. -/
def WrittenToken (t t' : Token) : Prop := t' = t ∧ Token.Written t.kind t.text

theorem Shapes.all {sort : Node → Bool} {ns ns' : List Node} (h : Forall₂ (Shapes sort) ns ns') :
    ns' = ns ∧ ns.all sort ∧ everyOf shaped ns := by
  induction h with
  | nil => exact ⟨rfl, rfl, rfl⟩
  | cons hn _ ih =>
    obtain ⟨rfl, hsort, hn⟩ := hn
    obtain ⟨rfl, hsorts, hns⟩ := ih
    exact ⟨rfl, by rw [List.all_cons, hsort, hsorts]; rfl, by rw [everyOf, hn, hns]; rfl⟩

theorem Shapes.identifier {t t' : Token} (ht : WrittenToken t t') (hk : t.kind = .ident) :
    Shapes isIdentifier (.identifier t.pos t.text) (.identifier t'.pos t'.text) := by
  obtain ⟨rfl, ht⟩ := ht
  exact ⟨rfl, rfl, ht.name hk⟩

theorem Shapes.named {n n' : Node} (h : Named WrittenToken n n') : Shapes isIdentifier n n' := by
  obtain ⟨ht, hk⟩ := h
  exact .identifier ht hk

theorem writtenToken_eof (pos : Pos) : WrittenToken (.eofAt pos) (.eofAt pos) := by
  refine ⟨rfl, Token.written_of_kind rfl ?_ ?_⟩
  all_goals
    intro h
    cases h

/-- The operators are all that is written with the kind of one. -/
theorem mem_operators (text : String) :
    ((operatorKind text).isInfix → text ∈ binaryOperators) ∧
      (starter? (operatorKind text) = some .unary → text ∈ unaryOperators) := by
  -- the tables of operators are by characters
  have htext : text = String.ofList text.toList := String.ofList_toList.symm
  generalize text.toList = cs at htext
  subst htext
  unfold operatorKind
  rw [String.toList_ofList]
  split
  · unfold Token.operator₁
    split
    all_goals simp [Token.Kind.isInfix, starter?, binaryOperators, unaryOperators]
  · unfold Token.operator₂
    split
    all_goals simp [Token.Kind.isInfix, starter?, binaryOperators, unaryOperators]
  · simp [Token.Kind.isInfix, starter?]

theorem WrittenToken.mem_binaryOperators {t t' : Token} (ht : WrittenToken t t')
    (hk : t.kind.isInfix) : t.text ∈ binaryOperators := by
  have hmark : t.kind.isMark := by
    cases hkind : t.kind <;> simp_all [Token.Kind.isInfix, Token.Kind.isMark]
  rw [← ht.2.mark hmark] at hk
  exact (mem_operators t.text).1 hk

theorem WrittenToken.mem_unaryOperators {t t' : Token} (ht : WrittenToken t t')
    (hk : starter? t.kind = some .unary) : t.text ∈ unaryOperators := by
  have hmark : t.kind.isMark := by
    cases hkind : t.kind <;> simp_all [starter?, Token.Kind.isMark]
  rw [← ht.2.mark hmark] at hk
  exact (mem_operators t.text).2 hk

/-- A text whose tokens are written as their kinds say, parsed beside itself. -/
def shaping : Correspondence where
  token := WrittenToken
  expression := Shapes isExpression
  block := Shapes isBlock
  statement := Shapes isStatement
  kind ht := by rw [ht.1]
  numeral ht _ := by rw [ht.1]
  ended ht := by
    obtain ⟨rfl, -⟩ := ht
    exact writtenToken_eof _
  nowhere := writtenToken_eof .unknown
  identifier ht hk := by
    obtain ⟨heq, -, hshaped⟩ := Shapes.identifier ht hk
    exact ⟨heq, rfl, hshaped⟩
  integer ht hk hv hgreat := by
    obtain ⟨rfl, ht⟩ := ht
    have hnonneg := Numeral.nonneg_of_parse? (ht.digits hk).2 hv
    exact ⟨rfl, rfl, by simp [every, shaped, hnonneg, hgreat]⟩
  string ht _ := by
    obtain ⟨rfl, -⟩ := ht
    exact ⟨rfl, rfl, rfl⟩
  boolean b ht := by
    obtain ⟨rfl, -⟩ := ht
    exact ⟨rfl, rfl, rfl⟩
  unary ht hk he := by
    have hop := ht.mem_unaryOperators hk
    obtain ⟨rfl, -⟩ := ht
    obtain ⟨rfl, hsort, he⟩ := he
    exact ⟨rfl, rfl, by simp [every, shaped, hop, hsort, he]⟩
  binary ht hk hl hr := by
    have hop := ht.mem_binaryOperators hk
    obtain ⟨rfl, -⟩ := ht
    obtain ⟨rfl, hsortl, hl⟩ := hl
    obtain ⟨rfl, hsortr, hr⟩ := hr
    exact ⟨rfl, rfl, by simp [every, shaped, hop, hsortl, hl, hsortr, hr]⟩
  conditional ht hc hb ho := by
    obtain ⟨rfl, -⟩ := ht
    obtain ⟨rfl, hsortc, hc⟩ := hc
    obtain ⟨rfl, hsortb, hb⟩ := hb
    cases ho with
    | none => exact ⟨rfl, rfl, by simp [every, everyIn, shaped, hsortc, hc, hsortb, hb]⟩
    | some he =>
      obtain ⟨rfl, hsorte, he⟩ := he
      exact ⟨rfl, rfl, by simp [every, everyIn, shaped, hsortc, hc, hsortb, hb, hsorte, he]⟩
  function ht hns hb := by
    obtain ⟨rfl, -⟩ := ht
    obtain ⟨rfl, hsorts, hns⟩ := Shapes.all (hns.imp fun _ _ => .named)
    obtain ⟨rfl, hsort, hb⟩ := hb
    exact ⟨rfl, rfl, by rw [every, shaped, hsorts, hns, hsort, hb]; rfl⟩
  call ht hf hes := by
    obtain ⟨rfl, -⟩ := ht
    obtain ⟨rfl, hsort, hf⟩ := hf
    obtain ⟨rfl, hsorts, hes⟩ := Shapes.all hes
    exact ⟨rfl, rfl, by rw [every, shaped, hsort, hf, hsorts, hes]; rfl⟩
  braced ht hss := by
    obtain ⟨rfl, -⟩ := ht
    obtain ⟨rfl, hsorts, hss⟩ := Shapes.all hss
    exact ⟨rfl, rfl, by rw [every, shaped, hsorts, hss]; rfl⟩
  binding ht hn he := by
    obtain ⟨rfl, -⟩ := ht
    obtain ⟨rfl, hsortn, hn⟩ := Shapes.named hn
    obtain ⟨rfl, hsort, he⟩ := he
    exact ⟨rfl, rfl, by simp [every, shaped, hsortn, hn, hsort, he]⟩
  returning ht he := by
    obtain ⟨rfl, -⟩ := ht
    obtain ⟨rfl, hsort, he⟩ := he
    exact ⟨rfl, rfl, by simp [every, shaped, hsort, he]⟩
  evaluated ht he := by
    obtain ⟨rfl, -⟩ := ht
    obtain ⟨rfl, hsort, he⟩ := he
    exact ⟨rfl, rfl, by simp [every, shaped, hsort, he]⟩

/-- **Whatever a parser returns is a program of the grammar.** -/
theorem shaped_ofSource (source : String) (cfg : Config) :
    (Parsed.ofSource source cfg).program.isProgram ∧
      (Parsed.ofSource source cfg).program.every shaped := by
  have htokens : Forall₂ WrittenToken (Token.scan source) (Token.scan source) := by
    rw [List.forall₂_same]
    exact fun t ht => ⟨rfl, Token.written_of_mem_scan ht⟩
  obtain ⟨ss, ss', hprogram, -, hss, -⟩ := shaping.ofTokens cfg htokens
  have hprogram : (Parsed.ofSource source cfg).program = .program .start ss := hprogram
  obtain ⟨-, hsorts, hss⟩ := Shapes.all hss
  rw [hprogram]
  exact ⟨rfl, by rw [every, shaped, hsorts, hss]; rfl⟩

/-- **The rendering determines the program.** Two texts may differ and be malformed, and be parsed
by parsers of different limits. If what they return is rendered alike, it is the same program, up to
places. -/
theorem same_of_render_eq {source source' : String} {cfg cfg' : Config}
    (h : (Parsed.ofSource source cfg).program.render =
      (Parsed.ofSource source' cfg').program.render) :
    (Parsed.ofSource source cfg).program.same (Parsed.ofSource source' cfg').program := by
  obtain ⟨hprogram, hshaped⟩ := shaped_ofSource source cfg
  obtain ⟨hprogram', hshaped'⟩ := shaped_ofSource source' cfg'
  refine Syntax.Node.same_of_unplaced _ _ ?_
  exact Syntax.Node.unplaced_of_render hprogram hprogram' hshaped hshaped' h

/-- A text with a condition that is a call, an empty block, calls of calls, a statement that starts
with a parenthesis after an expression, and a string that reads like a program. -/
def crowdedText : String :=
  "if (f(x)(y)) { } else { g }; (a + b); h(1, -2)(\"\x7d; let a = \\\"1\\\";\")"

/-- The same program, with parentheses of its own, behind a statement that is malformed. -/
def crowdedText' : String :=
  "let = 1; if (((f)(x))((y))) { } else { (g); } a + b; h((1), (-2))(\"\x7d; let a = \\\"1\\\";\")"

theorem same_crowdedText :
    (Parsed.ofSource crowdedText' {}).errors ≠ [] ∧
      (Parsed.ofSource crowdedText {}).program.render =
        (Parsed.ofSource crowdedText' {}).program.render ∧
      (Parsed.ofSource crowdedText {}).program.same (Parsed.ofSource crowdedText' {}).program := by
  obtain ⟨herrors, hrender⟩ : (Parsed.ofSource crowdedText' {}).errors ≠ [] ∧
      (Parsed.ofSource crowdedText {}).program.render =
        (Parsed.ofSource crowdedText' {}).program.render := by
    have htext : crowdedText.toList = _ := String.toList_ofList
    have htext' : crowdedText'.toList = _ := String.toList_ofList
    rw [Parsed.ofSource, Parsed.ofSource, Token.scan_of_toList htext, Token.scan_of_toList htext']
    decide +kernel
  exact ⟨herrors, hrender, same_of_render_eq hrender⟩

end Scriptlet.Parser
