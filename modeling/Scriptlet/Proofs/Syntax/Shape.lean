import Scriptlet.Syntax.Render
import Scriptlet.Text.Case
import Scriptlet.Token.Lexeme
import Scriptlet.Word.Basic

/-!
# The trees of the grammar

Which trees the parser builds, and which of them can be written and read back. Every condition
looks at one node and what stands right under it; a tree has to meet it in every node.

* `Node.every`: a condition holds of a tree and of all trees inside it.
* `Node.shaped`: the tree is one of the grammar.
* `Node.bracketed`: a condition brings its own parentheses.
* `Node.separated`: no expression is followed by a statement that starts with a parenthesis.
-/

namespace Scriptlet.Syntax

/-- The words that are no identifiers, in small letters. -/
def keywords : List String := ["fn", "let", "true", "false", "if", "else", "return"]

/-- Whether a text is an identifier: a letter or an underscore, then letters, underscores and
digits, and not a keyword in any letter case. -/
def isName (s : String) : Bool :=
  (match s.toList with
    | c :: cs => Token.isLetter c && cs.all Token.isWordChar
    | [] => false) && !keywords.contains (Text.lower s)

/-- The prefix operators. -/
def unaryOperators : List String := ["!", "-"]

/-- The infix operators. -/
def binaryOperators : List String := ["+", "-", "*", "/", "^", "==", "!=", "<", ">", "<=", ">="]

namespace Node

/-- Whether a tree is an expression, seen from its root. -/
def isExpression : Node → Bool
  | identifier .. | integer .. | boolean .. | string .. | unary .. | binary .. | conditional ..
  | function .. | call .. => true
  | _ => false

/-- Whether a tree is a statement, seen from its root. -/
def isStatement : Node → Bool
  | binding .. | returning .. | statement .. => true
  | _ => false

/-- Whether a tree is an identifier. -/
def isIdentifier : Node → Bool
  | identifier .. => true
  | _ => false

/-- Whether a tree is a prefix or infix expression, seen from its root. -/
def isOperation : Node → Bool
  | unary .. | binary .. => true
  | _ => false

/-- Whether a tree is a block, seen from its root. -/
def isBlock : Node → Bool
  | block .. => true
  | _ => false

/-- Whether a tree is a program, seen from its root. -/
def isProgram : Node → Bool
  | program .. => true
  | _ => false

/-- Whether a tree is a call, seen from its root. -/
def isCall : Node → Bool
  | call .. => true
  | _ => false

mutual

/-- Whether a tree and all trees inside it satisfy `p`. -/
def every (p : Node → Bool) : Node → Bool
  | n@(program _ ss) | n@(block _ ss) => p n && everyOf p ss
  | n@(binding _ name value) => p n && every p name && every p value
  | n@(returning _ value) => p n && every p value
  | n@(statement _ e) => p n && every p e
  | n@(unary _ _ e) => p n && every p e
  | n@(binary _ l _ r) => p n && every p l && every p r
  | n@(conditional _ c t e) => p n && every p c && every p t && everyIn p e
  | n@(function _ params body) => p n && everyOf p params && every p body
  | n@(call _ f args) => p n && every p f && everyOf p args
  | n => p n

/-- Whether the trees of a list and all trees inside them satisfy `p`. -/
def everyOf (p : Node → Bool) : List Node → Bool
  | [] => true
  | n :: ns => every p n && everyOf p ns

/-- Whether a tree that may be absent and all trees inside it satisfy `p`. -/
def everyIn (p : Node → Bool) : Option Node → Bool
  | none => true
  | some n => every p n

end

mutual

theorem every_and (p q : Node → Bool) : (n : Node) →
    n.every (fun n => p n && q n) = (n.every p && n.every q)
  | program _ ss | block _ ss => by
    simp only [every, everyOf_and p q ss]
    ac_rfl
  | binding _ name value => by
    simp only [every, every_and p q name, every_and p q value]
    ac_rfl
  | returning _ value => by
    simp only [every, every_and p q value]
    ac_rfl
  | statement _ e => by
    simp only [every, every_and p q e]
    ac_rfl
  | unary _ _ e => by
    simp only [every, every_and p q e]
    ac_rfl
  | binary _ l _ r => by
    simp only [every, every_and p q l, every_and p q r]
    ac_rfl
  | conditional _ c t e => by
    simp only [every, every_and p q c, every_and p q t, everyIn_and p q e]
    ac_rfl
  | function _ params body => by
    simp only [every, everyOf_and p q params, every_and p q body]
    ac_rfl
  | call _ f args => by
    simp only [every, every_and p q f, everyOf_and p q args]
    ac_rfl
  | identifier .. | integer .. | boolean .. | string .. | bare .. => rfl

theorem everyOf_and (p q : Node → Bool) : (ns : List Node) →
    everyOf (fun n => p n && q n) ns = (everyOf p ns && everyOf q ns)
  | [] => rfl
  | n :: ns => by
    simp only [everyOf, every_and p q n, everyOf_and p q ns]
    ac_rfl

theorem everyIn_and (p q : Node → Bool) : (n : Option Node) →
    everyIn (fun n => p n && q n) n = (everyIn p n && everyIn q n)
  | none => rfl
  | some n => every_and p q n

end

theorem every_of_mem {p : Node → Bool} {n : Node} {ns : List Node} (h : everyOf p ns)
    (hn : n ∈ ns) : n.every p := by
  induction ns with
  | nil => cases hn
  | cons n' ns ih =>
    simp only [everyOf, Bool.and_eq_true] at h
    rcases List.mem_cons.1 hn with rfl | hrest
    · exact h.1
    · exact ih h.2 hrest

theorem self_of_every {p : Node → Bool} {n : Node} (h : n.every p) : p n := by
  cases n with
  | identifier | integer | boolean | string | bare => exact h
  | _ =>
    simp only [every, Bool.and_eq_true] at h
    simp only [h]

theorem every_body {p : Node → Bool} {pos : Pos} {params : List Node} {body : Node}
    (h : (function pos params body).every p) : body.every p := by
  simp only [every, Bool.and_eq_true] at h
  exact h.2

/-- The trees right under a node that are evaluated in the scope of the node. -/
def parts : Node → List Node
  | program _ ss | block _ ss => ss
  | statement _ e | binding _ _ e | returning _ e | unary _ _ e => [e]
  | binary _ l _ r => [l, r]
  | conditional _ c t e => c :: t :: e.toList
  | call _ f args => f :: args
  | _ => []

theorem every_of_mem_parts {p : Node → Bool} {n c : Node} (h : n.every p) (hc : c ∈ n.parts) :
    c.every p := by
  cases n with
  | program _ ss | block _ ss =>
    simp only [every, Bool.and_eq_true] at h
    exact every_of_mem h.2 hc
  | statement _ e | binding _ _ e | returning _ e | unary _ _ e =>
    simp only [every, Bool.and_eq_true] at h
    rw [List.mem_singleton.1 hc]
    exact h.2
  | binary _ l _ r =>
    simp only [every, Bool.and_eq_true] at h
    rcases List.mem_cons.1 hc with rfl | hr
    · exact h.1.2
    · rw [List.mem_singleton.1 hr]
      exact h.2
  | conditional _ c t e =>
    simp only [every, Bool.and_eq_true] at h
    rcases List.mem_cons.1 hc with rfl | hc
    · exact h.1.1.2
    rcases List.mem_cons.1 hc with rfl | hc
    · exact h.1.2
    · cases e with
      | none => cases hc
      | some e =>
        rw [List.mem_singleton.1 hc]
        exact h.2
  | call _ f args =>
    simp only [every, Bool.and_eq_true] at h
    rcases List.mem_cons.1 hc with rfl | hc
    · exact h.1.2
    · exact every_of_mem h.2 hc
  | identifier | integer | boolean | string | function | bare => cases hc

/-- The trees that are evaluated when a tree is, here or in a call: the tree itself, and all that
stands in its parts and in the bodies of its functions. -/
inductive Within : Node → Node → Prop
  | self {n : Node} : Within n n
  | part {e c n : Node} : c ∈ n.parts → Within e c → Within e n
  | body {e body : Node} {pos : Pos} {params : List Node} :
      Within e body → Within e (function pos params body)

theorem Within.every {p : Node → Bool} {e n : Node} (h : Within e n) (hn : n.every p) :
    e.every p := by
  induction h with
  | self => exact hn
  | part hc _ ih => exact ih (every_of_mem_parts hn hc)
  | body _ ih => exact ih (every_body hn)

/-- Whether a node is one that the parser builds: what stands under it is of the sort that the
grammar asks for, and its name, number or operator can be written. -/
def shaped : Node → Bool
  | program _ ss | block _ ss => ss.all isStatement
  | binding _ name value => name.isIdentifier && value.isExpression
  | returning _ value => value.isExpression
  | statement _ e => e.isExpression
  | identifier _ name => isName name
  | integer _ n => 0 ≤ n && n ≤ Word.greatest
  | boolean .. | string .. => true
  | unary _ op e => unaryOperators.contains op && e.isExpression
  | binary _ l op r => binaryOperators.contains op && l.isExpression && r.isExpression
  | conditional _ c t e => c.isExpression && t.isBlock && e.all isBlock
  | function _ params body => params.all isIdentifier && body.isBlock
  | call _ f args => f.isExpression && args.all isExpression
  | bare _ => false

/-- Whether a node that is a condition has a prefix or infix expression to decide on, which is
written in parentheses. -/
def bracketed : Node → Bool
  | conditional _ c _ _ => c.isOperation
  | _ => true

/-- Whether no expression in a list of statements is directly followed by a statement that is
written with a parenthesis first. -/
def apart : List Node → Bool
  | statement _ _ :: s :: ss => s.render.toList.head? != some '(' && apart (s :: ss)
  | _ :: ss => apart ss
  | [] => true

/-- Whether the statements of a node stand apart. -/
def separated (n : Node) : Bool := apart n.statements

end Node

end Scriptlet.Syntax
