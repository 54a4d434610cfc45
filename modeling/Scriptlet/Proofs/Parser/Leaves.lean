import Scriptlet.Proofs.Numeral
import Scriptlet.Proofs.Parser.Correspondence
import Scriptlet.Proofs.Syntax.Shape
import Scriptlet.Proofs.Token.Lexemes

/-!
# The leaves of parsed trees

Every tree that is parsed of a text has a meaning, its integers are words, and its identifiers are
identifiers of the text. That holds of all that is parsed, also when malformed statements were
dropped on the way.

* `Node.avoids`: a node has a meaning, is no integer beyond a word, and has none of the given names.
* `Token.occurs`: an identifier occurs in a text.
* `every_avoids_ofSource`: a parsed tree avoids all names that do not occur.
-/

namespace Scriptlet

open Syntax (Node)
open Syntax.Node (every everyOf everyIn)
open List (Forall₂)

/-- Whether a node has a meaning, is no integer beyond a word, and is no identifier of the given
names. -/
def Syntax.Node.avoids (names : List String) : Node → Bool
  | identifier _ name => !names.contains name
  | integer _ n => Word.least ≤ n && n ≤ Word.greatest
  | bare _ => false
  | _ => true

/-- Whether an identifier occurs in a text. -/
def Token.occurs (name source : String) : Bool :=
  (Token.scan source).any fun t => t.kind == .ident && t.text == name

namespace Parser

/-- A tree that avoids names, and that tree again. -/
def Avoids (names : List String) (n n' : Node) : Prop := n' = n ∧ n.every (Node.avoids names)

/-- A token of a text in which the names do not occur, and that token again. -/
def AvoidsToken (names : List String) (t t' : Token) : Prop :=
  t' = t ∧ (t.kind = .ident → t.text ∉ names) ∧ (t.kind = .int → t.text.toList.all Token.isDigit)

variable {names : List String}

theorem Avoids.all {ns ns' : List Node} (h : Forall₂ (Avoids names) ns ns') :
    ns' = ns ∧ everyOf (Node.avoids names) ns := by
  induction h with
  | nil => exact ⟨rfl, rfl⟩
  | cons hn _ ih =>
    obtain ⟨rfl, hn⟩ := hn
    obtain ⟨rfl, hns⟩ := ih
    exact ⟨rfl, by rw [everyOf, hn, hns]; rfl⟩

theorem Avoids.identifier {t t' : Token} (ht : AvoidsToken names t t') (hk : t.kind = .ident) :
    Avoids names (.identifier t.pos t.text) (.identifier t'.pos t'.text) := by
  obtain ⟨rfl, hname, -⟩ := ht
  refine ⟨rfl, ?_⟩
  simp [every, Node.avoids, hname hk]

theorem Avoids.named {n n' : Node} (h : Named (AvoidsToken names) n n') : Avoids names n n' := by
  obtain ⟨ht, hk⟩ := h
  exact .identifier ht hk

/-- A text in which names do not occur, parsed beside itself. -/
def avoiding (names : List String) : Correspondence where
  token := AvoidsToken names
  expression := Avoids names
  block := Avoids names
  statement := Avoids names
  kind ht := by rw [ht.1]
  numeral ht _ := by rw [ht.1]
  ended ht := ⟨by rw [ht.1], nofun, nofun⟩
  nowhere := ⟨rfl, nofun, nofun⟩
  identifier := .identifier
  integer {t t' v} ht hk hv hgreat := by
    obtain ⟨rfl, -, hdigits⟩ := ht
    refine ⟨rfl, ?_⟩
    have hnonneg := Numeral.nonneg_of_parse? (hdigits hk) hv
    have hleast : Word.least ≤ v := Int.le_trans (by decide) hnonneg
    simp [every, Node.avoids, hleast, hgreat]
  string ht _ := by
    obtain ⟨rfl, -⟩ := ht
    exact ⟨rfl, rfl⟩
  boolean b ht := by
    obtain ⟨rfl, -⟩ := ht
    exact ⟨rfl, rfl⟩
  unary ht _ he := by
    obtain ⟨rfl, -⟩ := ht
    obtain ⟨rfl, he⟩ := he
    exact ⟨rfl, by simp [every, Node.avoids, he]⟩
  binary ht _ hl hr := by
    obtain ⟨rfl, -⟩ := ht
    obtain ⟨rfl, hl⟩ := hl
    obtain ⟨rfl, hr⟩ := hr
    exact ⟨rfl, by simp [every, Node.avoids, hl, hr]⟩
  conditional ht hc hb ho := by
    obtain ⟨rfl, -⟩ := ht
    obtain ⟨rfl, hc⟩ := hc
    obtain ⟨rfl, hb⟩ := hb
    cases ho with
    | none => exact ⟨rfl, by simp [every, everyIn, Node.avoids, hc, hb]⟩
    | some he =>
      obtain ⟨rfl, he⟩ := he
      exact ⟨rfl, by simp [every, everyIn, Node.avoids, hc, hb, he]⟩
  function ht hns hb := by
    obtain ⟨rfl, -⟩ := ht
    obtain ⟨rfl, hns⟩ := Avoids.all (hns.imp fun _ _ => .named)
    obtain ⟨rfl, hb⟩ := hb
    exact ⟨rfl, by simp [every, Node.avoids, hns, hb]⟩
  call ht hf hes := by
    obtain ⟨rfl, -⟩ := ht
    obtain ⟨rfl, hf⟩ := hf
    obtain ⟨rfl, hes⟩ := Avoids.all hes
    exact ⟨rfl, by simp [every, Node.avoids, hf, hes]⟩
  braced ht hss := by
    obtain ⟨rfl, -⟩ := ht
    obtain ⟨rfl, hss⟩ := Avoids.all hss
    exact ⟨rfl, by simp [every, Node.avoids, hss]⟩
  binding ht hn he := by
    obtain ⟨rfl, -⟩ := ht
    obtain ⟨rfl, hn⟩ := Avoids.named hn
    obtain ⟨rfl, he⟩ := he
    exact ⟨rfl, by simp [every, Node.avoids, hn, he]⟩
  returning ht he := by
    obtain ⟨rfl, -⟩ := ht
    obtain ⟨rfl, he⟩ := he
    exact ⟨rfl, by simp [every, Node.avoids, he]⟩
  evaluated ht he := by
    obtain ⟨rfl, -⟩ := ht
    obtain ⟨rfl, he⟩ := he
    exact ⟨rfl, by simp [every, Node.avoids, he]⟩

/-- **A parsed tree avoids all names that do not occur in the text.** -/
theorem every_avoids_ofSource (cfg : Config) {source : String}
    (h : ∀ name ∈ names, Token.occurs name source = false) :
    (Parsed.ofSource source cfg).program.every (Node.avoids names) := by
  have htokens : Forall₂ (AvoidsToken names) (Token.scan source) (Token.scan source) := by
    rw [List.forall₂_same]
    intro t ht
    refine ⟨rfl, fun hk hmem => ?_, Token.all_isDigit_of_mem_scan ht⟩
    have hany : Token.occurs t.text source := by
      rw [Token.occurs, List.any_eq_true]
      exact ⟨t, ht, by simp [hk]⟩
    rw [h t.text hmem] at hany
    cases hany
  obtain ⟨ss, ss', hprogram, -, hss, -⟩ := (avoiding names).ofTokens cfg htokens
  have hprogram : (Parsed.ofSource source cfg).program = .program .start ss := hprogram
  rw [hprogram]
  simp [every, Node.avoids, (Avoids.all hss).2]

end Parser

end Scriptlet
