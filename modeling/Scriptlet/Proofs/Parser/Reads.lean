import Scriptlet.Parser.Program

/-!
# What a parse without diagnostics reads

The tree that a list of tokens stands for, as a relation between the tokens ahead, the tokens that
are left and the tree. It says of a parser of expressions what the rules make of it: each relation
takes the relation `E` of the expressions inside, which is given the power that an expression has
to bind tighter than.

* `Reads.Statement`, `Reads.Body`, `Reads.Program`: statements, what is between braces, a text.
* `Reads.Start`, `Reads.Extension`: what a token starts, and what continues it to the right.
* `Reads.Expression`: expressions with at most `budget` of them open at once.
* `Reads.Opens`: what is read of an expression before it is extended.
-/

namespace Scriptlet.Parser

open Syntax (Node)
open Token (Kind)

/-- Relates the tokens ahead, the tokens that are left of them, and what was read in between. -/
abbrev Reading (α : Type) := List Token → List Token → α → Prop

namespace Reads

/-- The tokens without a semicolon at their start. -/
def dropSemicolon : List Token → List Token
  | [] => []
  | t :: ts => if t.kind = .semicolon then ts else t :: ts

/-- The tokens without the semicolons at their start. -/
def dropSemicolons (ts : List Token) : List Token := ts.dropWhile (·.kind = .semicolon)

section

variable {t : Token} {ts : List Token}

theorem dropSemicolon_cons (ht : t.kind = .semicolon) : dropSemicolon (t :: ts) = ts := by
  simp [dropSemicolon, ht]

theorem dropSemicolons_cons (ht : t.kind = .semicolon) :
    dropSemicolons (t :: ts) = dropSemicolons ts := by
  simp [dropSemicolons, ht]

theorem dropSemicolon_of_head (h : ∀ t ∈ ts.head?, t.kind ≠ .semicolon) :
    dropSemicolon ts = ts := by
  cases ts with
  | nil => rfl
  | cons t ts => simp [dropSemicolon, h t rfl]

theorem dropSemicolons_of_head (h : ∀ t ∈ ts.head?, t.kind ≠ .semicolon) :
    dropSemicolons ts = ts := by
  cases ts with
  | nil => rfl
  | cons t ts => simp [dropSemicolons, h t rfl]

end

/-- Whether a token continues an expression that has to bind tighter than `power`. -/
def Continues (power : Nat) (kind : Kind) : Prop :=
  (kind.isInfix = true ∨ kind = .lparen) ∧ power < kind.power

/-- Whether an expression that has to bind tighter than `power` ends before these tokens. -/
def Ends (power : Nat) (ts : List Token) : Prop := ∀ t ∈ ts.head?, ¬ Continues power t.kind

section

variable (E : Nat → Reading Node)

/-- A statement, with the semicolons that belong to it. -/
inductive Statement : Reading Node
  | binding {t n a : Token} {ts m : List Token} {v : Node} :
      t.kind = .letKey → n.kind = .ident → a.kind = .assign → E Kind.lowestPower ts m v →
      Statement (t :: n :: a :: ts) (dropSemicolons m)
        (.binding t.pos (.identifier n.pos n.text) v)
  | returning {t : Token} {ts m : List Token} {v : Node} :
      t.kind = .returnKey → E Kind.lowestPower ts m v →
      Statement (t :: ts) (dropSemicolons m) (.returning t.pos v)
  | expression {t : Token} {ts m : List Token} {v : Node} :
      t.kind ≠ .letKey → t.kind ≠ .returnKey → E Kind.lowestPower (t :: ts) m v →
      Statement (t :: ts) (dropSemicolon m) (.statement t.pos v)

/-- Statements up to the brace that closes them, or up to the end of the text. -/
inductive Body : Reading (List Node)
  | closed {c : Token} {r : List Token} : c.kind = .rbrace → Body (c :: r) r []
  | unclosed : Body [] [] []
  | cons {ts m r : List Token} {s : Node} {ss : List Node} :
      Statement E ts m s → Body m r ss → Body ts r (s :: ss)

/-- Statements up to the end of the text. -/
inductive Program : List Token → List Node → Prop
  | nil : Program [] []
  | cons {ts m : List Token} {s : Node} {ss : List Node} :
      Statement E ts m s → Program m ss → Program ts (s :: ss)

/-- The `else` part of a condition, if there is one. -/
inductive Else : Reading (Option Node)
  | none {r : List Token} : (∀ t ∈ r.head?, t.kind ≠ .elseKey) → Else r r none
  | some {e b : Token} {ts r : List Token} {ss : List Node} :
      e.kind = .elseKey → b.kind = .lbrace → Body E ts r ss →
      Else (e :: b :: ts) r (some (.block b.pos ss))

/-- More names, each after a comma, and the closing parenthesis. -/
inductive MoreParameters : Reading (List Node)
  | done {p : Token} {r : List Token} : p.kind = .rparen → MoreParameters (p :: r) r []
  | more {c n : Token} {ts r : List Token} {ns : List Node} :
      c.kind = .comma → n.kind = .ident → MoreParameters ts r ns →
      MoreParameters (c :: n :: ts) r (.identifier n.pos n.text :: ns)

/-- The names of a function up to the closing parenthesis. -/
inductive Parameters : Reading (List Node)
  | none {p : Token} {r : List Token} : p.kind = .rparen → Parameters (p :: r) r []
  | some {n : Token} {ts r : List Token} {ns : List Node} :
      n.kind = .ident → MoreParameters ts r ns →
      Parameters (n :: ts) r (.identifier n.pos n.text :: ns)

/-- More arguments, each after a comma, and the closing parenthesis. -/
inductive MoreArguments : Reading (List Node)
  | done {p : Token} {r : List Token} : p.kind = .rparen → MoreArguments (p :: r) r []
  | more {c : Token} {ts m r : List Token} {e : Node} {es : List Node} :
      c.kind = .comma → E Kind.lowestPower ts m e → MoreArguments m r es →
      MoreArguments (c :: ts) r (e :: es)

/-- The arguments of a call up to the closing parenthesis. -/
inductive Arguments : Reading (List Node)
  | none {p : Token} {r : List Token} : p.kind = .rparen → Arguments (p :: r) r []
  | some {ts m r : List Token} {e : Node} {es : List Node} :
      E Kind.lowestPower ts m e → MoreArguments E m r es → Arguments ts r (e :: es)

/-- The expression that the first token starts. -/
inductive Start : Reading Node
  | identifier {t : Token} {r : List Token} :
      t.kind = .ident → Start (t :: r) r (.identifier t.pos t.text)
  | integer {t : Token} {r : List Token} {v : Int} :
      t.kind = .int → Numeral.parse? t.text = some v → v ≤ Word.greatest →
      Start (t :: r) r (.integer t.pos v)
  | string {t : Token} {r : List Token} :
      t.kind = .string → Start (t :: r) r (.string t.pos t.text)
  | boolean {t : Token} {r : List Token} :
      t.kind = .trueKey ∨ t.kind = .falseKey →
      Start (t :: r) r (.boolean t.pos (t.kind == .trueKey))
  | unary {t : Token} {ts r : List Token} {e : Node} :
      t.kind = .bang ∨ t.kind = .minus → E Kind.prefixPower ts r e →
      Start (t :: ts) r (.unary t.pos t.text e)
  | group {t p : Token} {ts r : List Token} {e : Node} :
      t.kind = .lparen → E Kind.lowestPower ts (p :: r) e → p.kind = .rparen →
      Start (t :: ts) r e
  | conditional {t l p b : Token} {ts us m r : List Token} {c : Node} {ss : List Node}
      {a : Option Node} :
      t.kind = .ifKey → l.kind = .lparen → E Kind.lowestPower ts (p :: b :: us) c →
      p.kind = .rparen → b.kind = .lbrace → Body E us m ss → Else E m r a →
      Start (t :: l :: ts) r (.conditional t.pos c (.block b.pos ss) a)
  | function {t l b : Token} {ts us r : List Token} {ns ss : List Node} :
      t.kind = .function → l.kind = .lparen → Parameters ts (b :: us) ns → b.kind = .lbrace →
      Body E us r ss → Start (t :: l :: ts) r (.function t.pos ns (.block b.pos ss))

/-- What `left` is extended to by tokens that bind tighter than `power`. -/
inductive Extension (power : Nat) : Node → Reading Node
  | done {left : Node} {r : List Token} : Ends power r → Extension power left r r left
  | binary {left right e : Node} {t : Token} {ts m r : List Token} :
      t.kind.isInfix = true → power < t.kind.power → E t.kind.power ts m right →
      Extension power (.binary t.pos left t.text right) m r e →
      Extension power left (t :: ts) r e
  | call {left e : Node} {t : Token} {ts m r : List Token} {args : List Node} :
      t.kind = .lparen → power < t.kind.power → Arguments E ts m args →
      Extension power (.call t.pos left args) m r e → Extension power left (t :: ts) r e

end

/-- Expressions of operators that bind tighter than `power`, with at most `budget` of them open at
once. -/
def Expression : (budget : Nat) → (power : Nat) → Reading Node
  | 0, _, _, _, _ => False
  | budget + 1, power, ts, r, e =>
    ∃ m left, Start (Expression budget) ts m left ∧ Extension (Expression budget) power left m r e

/-! ## What is read so far -/

/-- The tokens `ts` are read as `e` up to `m`, with at most `budget` expressions open inside, and
what follows may extend it. -/
def Opens (budget : Nat) (ts m : List Token) (e : Node) : Prop :=
  ∀ power r x, power ≤ Kind.prefixPower → Extension (Expression budget) power e m r x →
    Expression (budget + 1) power ts r x

variable {b power : Nat} {ts m : List Token} {e : Node}

theorem Opens.of_start (h : Start (Expression b) ts m e) : Opens b ts m e :=
  fun _ _ _ _ hx => ⟨m, e, h, hx⟩

/-- An expression is read up to what ends it. -/
theorem Opens.reads (h : Opens b ts m e) (hp : power ≤ Kind.prefixPower) (hm : Ends power m) :
    Expression (b + 1) power ts m e :=
  h power m e hp (.done hm)

end Reads

end Scriptlet.Parser
