import Scriptlet.Proofs.Numeral
import Scriptlet.Proofs.Syntax.Shape
import Scriptlet.Proofs.Token.Lexemes

/-!
# The tokens that a tree is written with

Scanning the text of a tree gives the tokens that the grammar writes it with, and nothing is
joined or cut apart: blanks and brackets stand wherever two tokens would run together.

* `Node.spell`: the tokens of a tree, without their places.
* `lexemes_render`: they are what the text of the tree starts with.
-/

namespace Scriptlet.Syntax

open Token

/-- The kind of the token that an operator is. -/
def operatorKind (op : String) : Kind :=
  match op.toList with
  | [c] => (operator₁ c).getD .illegal
  | [c, d] => (operator₂ c d).getD .illegal
  | _ => .illegal

namespace Node

mutual

/-- The kinds and texts of the tokens that a tree is written with. -/
def spell : Node → List (Kind × String)
  | program _ ss | block _ ss => spellAll ss
  | binding _ name value =>
    (.letKey, "let") :: (spell name ++ (.assign, "=") :: (spell value ++ [(.semicolon, ";")]))
  | returning _ value => (.returnKey, "return") :: (spell value ++ [(.semicolon, ";")])
  | statement _ e => spell e
  | identifier _ name => [(.ident, name)]
  | integer _ n => [(.int, toString n)]
  | boolean _ b => [if b then (.trueKey, "true") else (.falseKey, "false")]
  | string _ s => [(.string, s)]
  | unary _ op e => (.lparen, "(") :: (operatorKind op, op) :: (spell e ++ [(.rparen, ")")])
  | binary _ l op r =>
    (.lparen, "(") :: (spell l ++ (operatorKind op, op) :: (spell r ++ [(.rparen, ")")]))
  | conditional _ c t e =>
    (.ifKey, "if") ::
      (spell c ++ (.lbrace, "\x7b") :: (spell t ++ (.rbrace, "\x7d") :: spellElse e))
  | function _ params body =>
    (.function, "fn") :: (.lparen, "(") ::
      (spellList params ++
        (.rparen, ")") :: (.lbrace, "\x7b") :: (spell body ++ [(.rbrace, "\x7d")]))
  | call _ f args => spell f ++ (.lparen, "(") :: (spellList args ++ [(.rparen, ")")])
  | bare _ => []

/-- The tokens of trees, one after the other. -/
def spellAll : List Node → List (Kind × String)
  | [] => []
  | n :: ns => spell n ++ spellAll ns

/-- The tokens of trees with a comma between them. -/
def spellList : List Node → List (Kind × String)
  | [] => []
  | n :: ns => spell n ++ spellMore ns

/-- The tokens of trees with a comma before each. -/
def spellMore : List Node → List (Kind × String)
  | [] => []
  | n :: ns => (.comma, ",") :: (spell n ++ spellMore ns)

/-- The tokens of the `else` part of a condition. -/
def spellElse : Option Node → List (Kind × String)
  | none => []
  | some e => (.elseKey, "else") :: (.lbrace, "\x7b") :: (spell e ++ [(.rbrace, "\x7d")])

end

end Node

/-! ## Single tokens -/

variable {c : Char} {cs rest : List Char}

theorem parted_cons (h : isWordChar c = false) : Parted (c :: cs) := by
  rintro d ⟨⟩
  exact h

theorem parted_space : Parted (' ' :: cs) := parted_cons (by decide)

theorem lexemes_mark {kind : Kind} (hk : operator₁ c = some kind)
    (h : c ∉ ['=', '!', '<', '>']) :
    lexemes (c :: rest) = (kind, String.ofList [c]) :: lexemes rest := by
  refine lexemes_operator₁ hk fun d _ => ?_
  unfold operator₂
  split
  all_goals first | rfl | simp at h

theorem lexemes_lparen : lexemes ('(' :: rest) = (.lparen, "(") :: lexemes rest :=
  lexemes_mark rfl (by decide)

theorem lexemes_rparen : lexemes (')' :: rest) = (.rparen, ")") :: lexemes rest :=
  lexemes_mark rfl (by decide)

theorem lexemes_lbrace : lexemes ('\x7b' :: rest) = (.lbrace, "\x7b") :: lexemes rest :=
  lexemes_mark rfl (by decide)

theorem lexemes_rbrace : lexemes ('\x7d' :: rest) = (.rbrace, "\x7d") :: lexemes rest :=
  lexemes_mark rfl (by decide)

theorem lexemes_comma : lexemes (',' :: rest) = (.comma, ",") :: lexemes rest :=
  lexemes_mark rfl (by decide)

theorem lexemes_semicolon : lexemes (';' :: rest) = (.semicolon, ";") :: lexemes rest :=
  lexemes_mark rfl (by decide)

theorem lexemes_keyword (word : String) (kind : Kind)
    (h : word ∈ keywords ∧ wordKind word = kind) (hr : Parted rest) :
    lexemes (word.toList ++ rest) = (kind, word) :: lexemes rest := by
  have hw : ∀ w ∈ keywords, w.toList ≠ [] ∧ w.toList.all isLetter := by decide +kernel
  obtain ⟨hne, hall⟩ := hw word h.1
  cases hc : word.toList with
  | nil => exact absurd hc hne
  | cons c cs =>
    rw [hc, List.all_cons, Bool.and_eq_true] at hall
    have hcs : cs.all isWordChar := by
      simp only [List.all_eq_true, isWordChar, Bool.or_eq_true] at hall ⊢
      exact fun d hd => .inl (hall.2 d hd)
    rw [lexemes_word hall.1 hcs hr, ← hc, String.ofList_toList, h.2]

theorem wordKind_of_isName {name : String} (h : isName name) : wordKind name = .ident := by
  simp only [isName, Bool.and_eq_true, Bool.not_eq_true'] at h
  have h := h.2
  unfold wordKind
  split
  all_goals first
    | rfl
    | rename_i heq
      rw [heq] at h
      simp [keywords] at h

theorem lexemes_name {name : String} (h : isName name) (hr : Parted rest) :
    lexemes (name.toList ++ rest) = (.ident, name) :: lexemes rest := by
  have hk := wordKind_of_isName h
  simp only [isName, Bool.and_eq_true] at h
  have h := h.1
  split at h
  · rename_i c cs heq
    rw [Bool.and_eq_true] at h
    have hn : String.ofList (c :: cs) = name := by rw [← heq, String.ofList_toList]
    rw [heq, lexemes_word h.1 h.2 hr, hn, hk]
  · cases h

theorem lexemes_integer {n : Int} (h : 0 ≤ n) (hr : Parted rest) :
    lexemes ((toString n).toList ++ rest) = (.int, toString n) :: lexemes rest := by
  have hd := Numeral.all_isDigit_toDigits n.toNat
  rw [Numeral.toString_eq h, String.toList_ofList]
  cases hc : Nat.toDigits 10 n.toNat with
  | nil => exact absurd hc Nat.toDigits_ne_nil
  | cons c cs =>
    rw [hc, List.all_cons, Bool.and_eq_true] at hd
    exact lexemes_number hd.1 hd.2 hr

/-- An infix operator and the blank after it. -/
theorem lexemes_binaryOperator {op : String} (h : op ∈ binaryOperators) :
    lexemes (op.toList ++ ' ' :: rest) = (operatorKind op, op) :: lexemes rest := by
  rw [← lexemes_space rest]
  simp only [binaryOperators, List.mem_cons, List.not_mem_nil, or_false] at h
  rcases h with rfl | rfl | rfl | rfl | rfl | rfl | rfl | rfl | rfl | rfl | rfl
  all_goals first
    | exact lexemes_operator₁ rfl (by rintro d ⟨⟩; rfl)
    | exact lexemes_operator₂ rfl

/-- A prefix operator in front of anything but `=`. -/
theorem lexemes_unaryOperator {op : String} (h : op ∈ unaryOperators)
    (hr : ∀ c ∈ rest.head?, c ≠ '=') :
    lexemes (op.toList ++ rest) = (operatorKind op, op) :: lexemes rest := by
  simp only [unaryOperators, List.mem_cons, List.not_mem_nil, or_false] at h
  have hn (d : Char) (hd : d ∈ rest.head?) : operator₂ '!' d = none := by
    have := hr d hd
    unfold operator₂
    split <;> simp_all
  rcases h with rfl | rfl
  · exact lexemes_operator₁ rfl hn
  · exact lexemes_mark rfl (by decide)

/-! ## Trees -/

namespace Node

/-- The kinds of the tokens that an expression is written with first. -/
def firstKinds : List Kind :=
  [.ident, .int, .string, .trueKey, .falseKey, .lparen, .ifKey, .function]

/-- The first character of an expression, and the kind of its first token. -/
theorem head_render : (n : Node) → n.isExpression → n.every shaped →
    ∃ c k, n.render.toList.head? = some c ∧ n.spell.head?.map (·.1) = some k ∧ c ≠ '=' ∧
      (k = .lparen → c = '(') ∧ k ∈ firstKinds
  | identifier _ name, _, h => by
    simp only [every, shaped, isName, Bool.and_eq_true] at h
    have h := h.1
    split at h
    · rename_i c cs heq
      rw [Bool.and_eq_true] at h
      refine ⟨c, .ident, by rw [render_identifier, heq]; rfl, rfl, ?_, by rintro ⟨⟩, by decide⟩
      rintro rfl
      exact absurd h.1 (by decide)
    · cases h
  | integer _ n, _, h => by
    simp only [every, shaped, Bool.and_eq_true, decide_eq_true_eq] at h
    have hd := Numeral.all_isDigit_toDigits n.toNat
    rw [render_integer, Numeral.toString_eq h.1, String.toList_ofList]
    cases hc : Nat.toDigits 10 n.toNat with
    | nil => exact absurd hc Nat.toDigits_ne_nil
    | cons c cs =>
      rw [hc, List.all_cons, Bool.and_eq_true] at hd
      refine ⟨c, .int, rfl, rfl, ?_, by rintro ⟨⟩, by decide⟩
      rintro rfl
      exact absurd hd.1 (by decide)
  | boolean _ true, _, _ => ⟨'t', .trueKey, by simp, rfl, by decide, by rintro ⟨⟩, by decide⟩
  | boolean _ false, _, _ => ⟨'f', .falseKey, by simp, rfl, by decide, by rintro ⟨⟩, by decide⟩
  | string _ s, _, _ =>
    ⟨'"', .string, by simp [toList_renderString], rfl, by decide, by rintro ⟨⟩, by decide⟩
  | unary .., _, _ => ⟨'(', .lparen, by simp, rfl, by decide, fun _ => rfl, by decide⟩
  | binary .., _, _ => ⟨'(', .lparen, by simp, rfl, by decide, fun _ => rfl, by decide⟩
  | conditional .., _, _ => ⟨'i', .ifKey, by simp, rfl, by decide, by rintro ⟨⟩, by decide⟩
  | function .., _, _ => ⟨'f', .function, by simp, rfl, by decide, by rintro ⟨⟩, by decide⟩
  | call _ f args, _, h => by
    simp only [every, shaped, Bool.and_eq_true] at h
    obtain ⟨c, k, hr, hs, hc⟩ := head_render f h.1.1.1 h.1.2
    refine ⟨c, k, by simp [hr], ?_, hc⟩
    obtain ⟨x, hx, rfl⟩ := Option.map_eq_some_iff.1 hs
    simp [spell, hx]

mutual

/-- **The text of a tree starts with its tokens**, if what follows does not go on with a word. -/
theorem lexemes_render : (n : Node) → n.every shaped → ∀ rest, Parted rest →
    lexemes (n.render.toList ++ rest) = n.spell ++ lexemes rest
  | program _ ss, h, rest, hr => by
    simp only [every, Bool.and_eq_true] at h
    exact lexemes_renderAll ss h.2 rest hr
  | block _ ss, h, rest, hr => by
    simp only [every, Bool.and_eq_true] at h
    exact lexemes_renderAll ss h.2 rest hr
  | binding pos name value, h, rest, _ => by
    simp only [every, Bool.and_eq_true] at h
    have e : (binding pos name value).render.toList ++ rest = "let".toList ++ ' ' ::
        (name.render.toList ++ ' ' :: '=' :: ' ' :: (value.render.toList ++ ';' :: rest)) := by
      simp
    have ha (rest : List Char) : lexemes ('=' :: ' ' :: rest) = (.assign, "=") :: lexemes rest := by
      rw [← lexemes_space rest]
      exact lexemes_operator₁ rfl (by rintro d ⟨⟩; rfl)
    rw [e, lexemes_keyword "let" .letKey (by decide +kernel) parted_space, lexemes_space,
      lexemes_render name h.1.2 _ parted_space, lexemes_space, ha,
      lexemes_render value h.2 _ (parted_cons (by decide)), lexemes_semicolon]
    simp [spell]
  | returning pos value, h, rest, _ => by
    simp only [every, Bool.and_eq_true] at h
    have e : (returning pos value).render.toList ++ rest =
        "return".toList ++ ' ' :: (value.render.toList ++ ';' :: rest) := by
      simp
    rw [e, lexemes_keyword "return" .returnKey (by decide +kernel) parted_space, lexemes_space,
      lexemes_render value h.2 _ (parted_cons (by decide)), lexemes_semicolon]
    simp [spell]
  | statement _ e, h, rest, hr => by
    simp only [every, Bool.and_eq_true] at h
    exact lexemes_render e h.2 rest hr
  | identifier _ name, h, rest, hr => lexemes_name h hr
  | integer _ n, h, rest, hr => by
    simp only [every, shaped, Bool.and_eq_true, decide_eq_true_eq] at h
    exact lexemes_integer h.1 hr
  | boolean _ true, _, rest, hr => lexemes_keyword "true" .trueKey (by decide +kernel) hr
  | boolean _ false, _, rest, hr => lexemes_keyword "false" .falseKey (by decide +kernel) hr
  | string _ s, _, rest, _ => lexemes_renderString s rest
  | unary pos op e, h, rest, _ => by
    simp only [every, shaped, Bool.and_eq_true, List.contains_iff_mem] at h
    have hd : (unary pos op e).render.toList ++ rest =
        '(' :: (op.toList ++ (e.render.toList ++ ')' :: rest)) := by
      simp
    obtain ⟨c, _, hc, _, hne, _⟩ := head_render e h.1.2 h.2
    have hh : ∀ d ∈ (e.render.toList ++ ')' :: rest).head?, d ≠ '=' := by
      rw [List.head?_append, hc]
      rintro d ⟨⟩
      exact hne
    rw [hd, lexemes_lparen, lexemes_unaryOperator h.1.1 hh,
      lexemes_render e h.2 _ (parted_cons (by decide)), lexemes_rparen]
    simp [spell]
  | binary pos l op r, h, rest, _ => by
    simp only [every, shaped, Bool.and_eq_true, List.contains_iff_mem] at h
    have hd : (binary pos l op r).render.toList ++ rest =
        '(' :: (l.render.toList ++
          ' ' :: (op.toList ++ ' ' :: (r.render.toList ++ ')' :: rest))) := by
      simp
    rw [hd, lexemes_lparen, lexemes_render l h.1.2 _ parted_space, lexemes_space,
      lexemes_binaryOperator h.1.1.1.1, lexemes_render r h.2 _ (parted_cons (by decide)),
      lexemes_rparen]
    simp [spell]
  | conditional pos c t e, h, rest, hr => by
    simp only [every, Bool.and_eq_true] at h
    have hd : (conditional pos c t e).render.toList ++ rest =
        "if".toList ++ ' ' :: (c.render.toList ++ ' ' :: '\x7b' :: ' ' ::
          (t.render.toList ++ ' ' :: '\x7d' :: ((renderElse e).toList ++ rest))) := by
      simp
    rw [hd, lexemes_keyword "if" .ifKey (by decide +kernel) parted_space, lexemes_space,
      lexemes_render c h.1.1.2 _ parted_space, lexemes_space, lexemes_lbrace, lexemes_space,
      lexemes_render t h.1.2 _ parted_space, lexemes_space, lexemes_rbrace,
      lexemes_renderElse e h.2 rest hr]
    simp [spell]
  | function pos params body, h, rest, _ => by
    simp only [every, Bool.and_eq_true] at h
    have hd : (function pos params body).render.toList ++ rest =
        "fn".toList ++ '(' :: ((", ".intercalate (renderAll params)).toList ++
          ')' :: ' ' :: '\x7b' :: ' ' :: (body.render.toList ++ ' ' :: '\x7d' :: rest)) := by
      simp
    rw [hd, lexemes_keyword "fn" .function (by decide +kernel) (parted_cons (by decide)), lexemes_lparen,
      lexemes_renderList params h.1.2 _ (parted_cons (by decide)), lexemes_rparen, lexemes_space,
      lexemes_lbrace, lexemes_space, lexemes_render body h.2 _ parted_space, lexemes_space,
      lexemes_rbrace]
    simp [spell]
  | call pos f args, h, rest, _ => by
    simp only [every, Bool.and_eq_true] at h
    have hd : (call pos f args).render.toList ++ rest =
        f.render.toList ++ '(' ::
          ((", ".intercalate (renderAll args)).toList ++ ')' :: rest) := by
      simp
    rw [hd, lexemes_render f h.1.2 _ (parted_cons (by decide)), lexemes_lparen,
      lexemes_renderList args h.2 _ (parted_cons (by decide)), lexemes_rparen]
    simp [spell]
  | bare _, h, _, _ => by cases h

theorem lexemes_renderAll : (ss : List Node) → everyOf shaped ss → ∀ rest, Parted rest →
    lexemes ((" ".intercalate (renderAll ss)).toList ++ rest) = spellAll ss ++ lexemes rest
  | [], _, rest, _ => rfl
  | [s], h, rest, hr => by
    simp only [everyOf, Bool.and_eq_true] at h
    have := lexemes_render s h.1 rest hr
    simpa [spellAll] using this
  | s :: t :: ss, h, rest, hr => by
    rw [everyOf, Bool.and_eq_true] at h
    have hd : (" ".intercalate (renderAll (s :: t :: ss))).toList ++ rest =
        s.render.toList ++ ' ' :: ((" ".intercalate (renderAll (t :: ss))).toList ++ rest) := by
      simp [String.toList_intercalate]
    rw [hd, lexemes_render s h.1 _ parted_space, lexemes_space,
      lexemes_renderAll (t :: ss) h.2 rest hr, ← List.append_assoc]
    rfl

theorem lexemes_renderList : (ns : List Node) → everyOf shaped ns → ∀ rest, Parted rest →
    lexemes ((", ".intercalate (renderAll ns)).toList ++ rest) = spellList ns ++ lexemes rest
  | [], _, rest, _ => rfl
  | [n], h, rest, hr => by
    simp only [everyOf, Bool.and_eq_true] at h
    have := lexemes_render n h.1 rest hr
    simpa [spellList, spellMore] using this
  | n :: m :: ns, h, rest, hr => by
    rw [everyOf, Bool.and_eq_true] at h
    have hd : (", ".intercalate (renderAll (n :: m :: ns))).toList ++ rest =
        n.render.toList ++
          ',' :: ' ' :: ((", ".intercalate (renderAll (m :: ns))).toList ++ rest) := by
      simp [String.toList_intercalate]
    rw [hd, lexemes_render n h.1 _ (parted_cons (by decide)), lexemes_comma, lexemes_space,
      lexemes_renderList (m :: ns) h.2 rest hr]
    simp [spellList, spellMore]

theorem lexemes_renderElse : (e : Option Node) → everyIn shaped e → ∀ rest, Parted rest →
    lexemes ((renderElse e).toList ++ rest) = spellElse e ++ lexemes rest
  | none, _, rest, _ => rfl
  | some e, h, rest, _ => by
    have hd : (renderElse (some e)).toList ++ rest =
        ' ' :: ("else".toList ++ ' ' :: '\x7b' :: ' ' ::
          (e.render.toList ++ ' ' :: '\x7d' :: rest)) := by
      simp
    rw [hd, lexemes_space, lexemes_keyword "else" .elseKey (by decide +kernel) parted_space, lexemes_space,
      lexemes_lbrace, lexemes_space, lexemes_render e h _ parted_space, lexemes_space,
      lexemes_rbrace]
    simp [spellElse]

end

/-- **Scanning the text of a tree gives its tokens** and the end of the text. -/
theorem map_bare_scan_render {n : Node} (h : n.every shaped) :
    (scan n.render).map Token.bare = n.spell ++ [(.eof, "")] := by
  have := lexemes_render n h [] nofun
  rw [List.append_nil, lexemes_nil, List.append_nil] at this
  rw [map_bare_scan, this]

end Node

end Scriptlet.Syntax
