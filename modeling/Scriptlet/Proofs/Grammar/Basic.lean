import Scriptlet.Token.Basic

/-!
# The grammar

The grammar of programs over kinds of tokens, without binding powers and without trees.

    program    ::= statement*
    statement  ::= LET IDENT ASSIGN expression SEMICOLON*
                 | RETURN expression SEMICOLON*
                 | expression SEMICOLON?
    expression ::= unary (binop unary)*
    unary      ::= (BANG | MINUS)* primary (LPAREN [expression (COMMA expression)*] RPAREN)*
    primary    ::= IDENT | INT | STRING | TRUE | FALSE | LPAREN expression RPAREN
                 | IF LPAREN expression RPAREN block [ELSE block]
                 | FUNCTION LPAREN [IDENT (COMMA IDENT)*] RPAREN block
    block      ::= LBRACE statement* (RBRACE | end of the text)

The token right after the expression of a statement is neither a binary operator nor a
parenthesis: an expression takes as much as it can.

* `Derives`: the grammar, with one constructor for each way to go on.
-/

namespace Scriptlet.Grammar

open Token (Kind)

/-- The phrases of the grammar, those that stand for a repetition or an option included. -/
inductive Phrase
  | program | statement | expression | operands | unary | calls | arguments | moreArguments
  | primary | alternative | parameters | moreParameters | block | body

/-- Whether an expression has to end before these tokens, having taken all it could. -/
def Munched (ks : List Kind) : Prop := ∀ k ∈ ks.head?, k.isInfix = false ∧ k ≠ .lparen

/-- `Derives x ks rs` says that `ks` begins with the phrase `x`, and that `rs` is what follows
it. -/
inductive Derives : Phrase → List Kind → List Kind → Prop
  | noStatement : Derives .program [] []
  | statement {ks ms rs : List Kind} :
      Derives .statement ks ms → Derives .program ms rs → Derives .program ks rs
  | binding {ks rs : List Kind} (n : Nat) :
      Derives .expression ks (List.replicate n .semicolon ++ rs) →
      Munched (List.replicate n .semicolon ++ rs) →
      Derives .statement (.letKey :: .ident :: .assign :: ks) rs
  | returning {ks rs : List Kind} (n : Nat) :
      Derives .expression ks (List.replicate n .semicolon ++ rs) →
      Munched (List.replicate n .semicolon ++ rs) →
      Derives .statement (.returnKey :: ks) rs
  | expression {ks rs : List Kind} (n : Nat) : n ≤ 1 →
      Derives .expression ks (List.replicate n .semicolon ++ rs) →
      Munched (List.replicate n .semicolon ++ rs) →
      Derives .statement ks rs
  | operation {ks ms rs : List Kind} :
      Derives .unary ks ms → Derives .operands ms rs → Derives .expression ks rs
  | noOperand {rs : List Kind} : Derives .operands rs rs
  | operand {k : Kind} {ks ms rs : List Kind} : k.isInfix = true →
      Derives .unary ks ms → Derives .operands ms rs → Derives .operands (k :: ks) rs
  | prefixed {k : Kind} {ks rs : List Kind} : k = .bang ∨ k = .minus →
      Derives .unary ks rs → Derives .unary (k :: ks) rs
  | called {ks ms rs : List Kind} :
      Derives .primary ks ms → Derives .calls ms rs → Derives .unary ks rs
  | noCall {rs : List Kind} : Derives .calls rs rs
  | call {ks ms rs : List Kind} :
      Derives .arguments ks ms → Derives .calls ms rs → Derives .calls (.lparen :: ks) rs
  | noArgument {rs : List Kind} : Derives .arguments (.rparen :: rs) rs
  | argument {ks ms rs : List Kind} :
      Derives .expression ks ms → Derives .moreArguments ms rs → Derives .arguments ks rs
  | lastArgument {rs : List Kind} : Derives .moreArguments (.rparen :: rs) rs
  | anotherArgument {ks ms rs : List Kind} :
      Derives .expression ks ms → Derives .moreArguments ms rs →
      Derives .moreArguments (.comma :: ks) rs
  | atom {k : Kind} {rs : List Kind} : k ∈ [.ident, .int, .string, .trueKey, .falseKey] →
      Derives .primary (k :: rs) rs
  | group {ks rs : List Kind} :
      Derives .expression ks (.rparen :: rs) → Derives .primary (.lparen :: ks) rs
  | conditional {ks ls ms rs : List Kind} :
      Derives .expression ks (.rparen :: ls) → Derives .block ls ms → Derives .alternative ms rs →
      Derives .primary (.ifKey :: .lparen :: ks) rs
  | function {ks ms rs : List Kind} :
      Derives .parameters ks ms → Derives .block ms rs →
      Derives .primary (.function :: .lparen :: ks) rs
  | noAlternative {rs : List Kind} : Derives .alternative rs rs
  | alternative {ks rs : List Kind} :
      Derives .block ks rs → Derives .alternative (.elseKey :: ks) rs
  | noParameter {rs : List Kind} : Derives .parameters (.rparen :: rs) rs
  | parameter {ks rs : List Kind} :
      Derives .moreParameters ks rs → Derives .parameters (.ident :: ks) rs
  | lastParameter {rs : List Kind} : Derives .moreParameters (.rparen :: rs) rs
  | anotherParameter {ks rs : List Kind} :
      Derives .moreParameters ks rs → Derives .moreParameters (.comma :: .ident :: ks) rs
  | block {ks rs : List Kind} : Derives .body ks rs → Derives .block (.lbrace :: ks) rs
  | closed {rs : List Kind} : Derives .body (.rbrace :: rs) rs
  | unclosed : Derives .body [] []
  | inside {ks ms rs : List Kind} :
      Derives .statement ks ms → Derives .body ms rs → Derives .body ks rs

/-- The fewest tokens that a phrase takes, as far as it matters. -/
def Phrase.least : Phrase → Nat
  | statement | expression | unary | primary => 1
  | _ => 0

namespace Derives

variable {x : Phrase} {ks ms rs : List Kind}

theorem length_add_least_le (h : Derives x ks rs) : rs.length + x.least ≤ ks.length := by
  induction h <;>
    simp only [Phrase.least, List.length_append, List.length_replicate, List.length_cons] at * <;>
    omega

theorem length_le (h : Derives x ks rs) : rs.length ≤ ks.length :=
  Nat.le_trans (Nat.le_add_right _ _) h.length_add_least_le

/-- Operands and then more operands. -/
theorem operands_append (h : Derives .operands ks ms) (h' : Derives .operands ms rs) :
    Derives .operands ks rs := by
  generalize hx : Phrase.operands = x at h
  induction h with
  | noOperand => exact h'
  | operand hk hu _ _ ih => exact .operand hk hu (ih h' hx)
  | _ => cases hx

/-- Without a parenthesis there is no call. -/
theorem eq_of_calls (h : Derives .calls ks rs) (hk : ∀ k ∈ ks.head?, k ≠ .lparen) : rs = ks := by
  cases h with
  | noCall => rfl
  | call => exact absurd rfl (hk _ rfl)

end Derives

end Scriptlet.Grammar
