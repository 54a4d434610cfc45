import Scriptlet.Proofs.Parser.Exact
import Scriptlet.Proofs.Syntax.Shape
import Scriptlet.Proofs.Token.Lexemes

/-!
# How high parsed trees are

The parser limits how many expressions are open at once, and not how high a tree is. An infix
operator goes on top of what stands to its left without opening that again, and a condition puts
three nodes on top of each expression in its blocks. So the height of a tree is bounded by the limit
only together with the length of its chains of infix operators.

* `Node.height`: the number of nodes on the longest way down.
* `Node.chain`: the number of infix operators on the way down to the left.
* `low_expression`: the height of an expression, for the number of expressions that may be open.
* `height_ofSource`: the height of a program.
-/

namespace Scriptlet.Syntax.Node

/-! ## Heights and chains -/

mutual

/-- The number of nodes on the longest way down through what is evaluated with a tree. The body of a
function is not. -/
def height : Node → Nat
  | program _ ss | block _ ss => 1 + heightOf ss
  | statement _ e | binding _ _ e | returning _ e | unary _ _ e => 1 + height e
  | binary _ l _ r => 1 + max (height l) (height r)
  | conditional _ c t e => 1 + max (height c) (max (height t) (heightIn e))
  | call _ f args => 1 + max (height f) (heightOf args)
  | identifier .. | integer .. | boolean .. | string .. | function .. | bare .. => 1

/-- The height of the highest tree of a list. -/
def heightOf : List Node → Nat
  | [] => 0
  | n :: ns => max (height n) (heightOf ns)

/-- The height of a tree that may be absent. -/
def heightIn : Option Node → Nat
  | none => 0
  | some n => height n

end

/-- The number of infix operators on the way down to the left, from the root on. -/
def chain : Node → Nat
  | binary _ l _ _ => chain l + 1
  | _ => 0

/-- Whether a tree is a condition, seen from its root. -/
def isConditional : Node → Bool
  | conditional .. => true
  | _ => false

variable {n c : Node} {ns : List Node}

theorem height_pos (n : Node) : 1 ≤ n.height := by
  cases n <;> simp [height]

theorem height_le_heightOf (h : n ∈ ns) : n.height ≤ heightOf ns := by
  induction ns with
  | nil => cases h
  | cons n' ns ih =>
    rw [heightOf]
    rcases List.mem_cons.1 h with rfl | h
    · omega
    · have hle := ih h
      omega

/-- What is evaluated with a tree is lower. -/
theorem height_lt_of_mem_parts (h : c ∈ n.parts) : c.height < n.height := by
  cases n with
  | program _ ss | block _ ss =>
    have hle : c.height ≤ heightOf ss := height_le_heightOf h
    rw [height]
    omega
  | statement _ e | binding _ _ e | returning _ e | unary _ _ e =>
    rw [List.mem_singleton.1 h, height]
    omega
  | binary _ l _ r =>
    rw [height]
    rcases List.mem_cons.1 h with rfl | h
    · omega
    · rw [List.mem_singleton.1 h]
      omega
  | conditional _ d t e =>
    rw [height]
    rcases List.mem_cons.1 h with rfl | h
    · omega
    rcases List.mem_cons.1 h with rfl | h
    · omega
    cases e with
    | none => cases h
    | some e =>
      rw [List.mem_singleton.1 h, heightIn]
      omega
  | call _ f args =>
    rw [height]
    rcases List.mem_cons.1 h with rfl | h
    · omega
    · have hle := height_le_heightOf h
      omega
  | identifier | integer | boolean | string | function | bare => cases h

/-- Whether a node is one of those that the height is bounded for: no call, no chain of more than
`w` operators, and a condition only if each open expression may add three nodes. -/
def plainly (w s : Nat) (n : Node) : Bool :=
  !n.isCall && (n.chain ≤ w && (!n.isConditional || 3 ≤ s))

end Scriptlet.Syntax.Node

namespace Scriptlet.Parser

open Syntax (Node)
open Syntax.Node
open Token (Kind)
open Reads

/-! ## One expression -/

/-- An expression with at most `k` others open inside it is this low. Each of these adds a chain and
`s` more nodes; on the way down to the left, the chain of the expression itself counts apart. -/
structure Low (w s k : Nat) (e : Node) : Prop where
  total : e.height ≤ (w + s) * k + 1
  below : e.height ≤ e.chain + ((w + s) * (k - 1) + s + 1)

section

variable {w s k : Nat} {E : Nat → Reading Node}
  (hE : ∀ {power ts r e}, E power ts r e → e.every (plainly w s) → Low w s k e)

include hE

theorem height_statement {ts r : List Token} {n : Node} (h : Statement E ts r n)
    (hn : n.every (plainly w s)) : n.height ≤ (w + s) * k + 2 := by
  cases h with
  | binding _ _ _ hv | returning _ hv | expression _ _ hv =>
    simp only [every, Bool.and_eq_true] at hn
    have hlow := (hE hv hn.2).total
    rw [height]
    omega

theorem height_body {ts r : List Token} {ss : List Node} (h : Body E ts r ss)
    (hss : everyOf (plainly w s) ss) : heightOf ss ≤ (w + s) * k + 2 := by
  induction h with
  | closed | unclosed => exact Nat.zero_le _
  | cons hs _ ih =>
    simp only [everyOf, Bool.and_eq_true] at hss
    have hfirst := height_statement hE hs hss.1
    have hrest := ih hss.2
    rw [heightOf]
    omega

theorem height_else {ts r : List Token} {a : Option Node} (h : Else E ts r a)
    (ha : everyIn (plainly w s) a) : heightIn a ≤ (w + s) * k + 3 := by
  cases h with
  | none => exact Nat.zero_le _
  | some _ _ hbody =>
    simp only [everyIn, every, Bool.and_eq_true] at ha
    have hlow := height_body hE hbody ha.2
    rw [heightIn, height]
    omega

theorem height_start (hs : 1 ≤ s) {ts m : List Token} {e : Node} (h : Start E ts m e)
    (he : e.every (plainly w s)) : e.height ≤ e.chain + ((w + s) * k + s + 1) := by
  cases h with
  | identifier | integer | string | boolean | function =>
    rw [height]
    omega
  | unary _ hx =>
    simp only [every, Bool.and_eq_true] at he
    have hlow := (hE hx he.2).total
    rw [height]
    omega
  | group _ hx _ =>
    have hlow := (hE hx he).below
    have hmono : (w + s) * (k - 1) ≤ (w + s) * k := Nat.mul_le_mul_left _ (Nat.sub_le k 1)
    omega
  | conditional _ _ hc _ _ hbody helse =>
    have hthree : 3 ≤ s := by
      have hself := self_of_every he
      simpa [plainly, isConditional, isCall, chain] using hself
    simp only [every, Bool.and_eq_true] at he
    have hcond := (hE hc he.1.1.2).total
    have hthen := height_body hE hbody he.1.2.2
    have helse := height_else hE helse he.2
    rw [height, height]
    omega

omit hE in
/-- An expression contains what it extends. -/
theorem every_of_extension {p : Node → Bool} {power : Nat} {left e : Node} {m r : List Token}
    (h : Extension E power left m r e) (he : e.every p) : left.every p := by
  induction h with
  | done => exact he
  | binary _ _ _ _ ih =>
    have hleft := ih he
    simp only [every, Bool.and_eq_true] at hleft
    exact hleft.1.2
  | call _ _ _ _ ih =>
    have hleft := ih he
    simp only [every, Bool.and_eq_true] at hleft
    exact hleft.1.2

/-- Each infix operator makes an expression higher by one node, and its chain longer by one. -/
theorem height_extension {power : Nat} {left e : Node} {m r : List Token}
    (h : Extension E power left m r e) (he : e.every (plainly w s))
    (hleft : left.height ≤ left.chain + ((w + s) * k + s + 1)) :
    e.height ≤ e.chain + ((w + s) * k + s + 1) := by
  induction h with
  | done => exact hleft
  | binary _ _ hright hnext ih =>
    have hnode := every_of_extension hnext he
    simp only [every, Bool.and_eq_true] at hnode
    have hlow := (hE hright hnode.2).total
    refine ih he ?_
    rw [height, chain]
    omega
  | call _ _ _ hnext _ =>
    have hself := self_of_every (every_of_extension hnext he)
    simp [plainly, isCall] at hself

end

theorem chain_le {w s : Nat} {e : Node} (he : e.every (plainly w s)) : e.chain ≤ w := by
  have hself := self_of_every he
  simp only [plainly, Bool.and_eq_true, decide_eq_true_eq] at hself
  exact hself.2.1

/-- Where no expression may be open inside, there are only leaves. -/
theorem height_of_expression_one {w s power : Nat} {ts r : List Token} {e : Node}
    (h : Expression 1 power ts r e) (he : e.every (plainly w s)) : e.height = 1 := by
  obtain ⟨m, left, hstart, hextend⟩ := h
  cases hextend with
  | done =>
    cases hstart with
    | identifier | integer | string | boolean | function => rw [height]
    | unary _ hx => exact hx.elim
    | group _ hx _ => exact hx.elim
    | conditional _ _ hc => exact hc.elim
  | binary _ _ hright _ => exact hright.elim
  | call _ _ _ hnext =>
    have hself := self_of_every (every_of_extension hnext he)
    simp [plainly, isCall] at hself

/-- **How high an expression is**, for the number of expressions that may be open inside it. -/
theorem low_expression {w s : Nat} (hs : 1 ≤ s) (k : Nat) :
    ∀ {power ts r e}, Expression (k + 1) power ts r e → e.every (plainly w s) → Low w s k e := by
  induction k with
  | zero =>
    intro power ts r e h he
    have hone := height_of_expression_one h he
    exact ⟨by omega, by omega⟩
  | succ k ih =>
    rintro power ts r e ⟨m, left, hstart, hextend⟩ he
    have hleft := height_start ih hs hstart (every_of_extension hextend he)
    have hbelow := height_extension ih hextend he hleft
    have hchain := chain_le he
    have hmul : (w + s) * (k + 1) = (w + s) * k + (w + s) := Nat.mul_succ _ _
    exact ⟨by omega, hbelow⟩

/-! ## Whole texts -/

theorem height_program {w s k : Nat} (hs : 1 ≤ s) {ts : List Token} {ss : List Node}
    (h : Program (Expression (k + 1)) ts ss) (hss : everyOf (plainly w s) ss) :
    heightOf ss ≤ (w + s) * k + 2 := by
  induction h with
  | nil => exact Nat.zero_le _
  | cons hfirst _ ih =>
    simp only [everyOf, Bool.and_eq_true] at hss
    have hlow := height_statement (low_expression hs k) hfirst hss.1
    have hrest := ih hss.2
    rw [heightOf]
    omega

/-- What was read of a text without diagnostics. -/
theorem reads_of_errors {source : String} {maxNesting : Int}
    (h : (Parsed.ofSource source { maxNesting }).errors = []) :
    ∃ ts ss, (Parsed.ofSource source { maxNesting }).program = .program .start ss ∧
      Program (Expression maxNesting.toNat) ts ss := by
  obtain ⟨us, z, hscan, -, -, hus⟩ := Token.scan_eq source
  have hended : Ended (Token.scan source) := hscan ▸ ended_append hus
  obtain ⟨ss, hprogram, hread⟩ := (errors_ofTokens_eq_nil_iff hended).1 ⟨h, rfl⟩
  exact ⟨_, ss, hprogram, hread⟩

/-- **How high a program is** whose text has no diagnostics: each expression that may be open adds a
chain of infix operators, and one node more, or three if there are conditions. -/
theorem height_ofSource {source : String} {k w s : Nat} (hs : 1 ≤ s)
    (herrors : (Parsed.ofSource source { maxNesting := k + 1 }).errors = [])
    (hplain : (Parsed.ofSource source { maxNesting := k + 1 }).program.every (plainly w s)) :
    (Parsed.ofSource source { maxNesting := k + 1 }).program.height ≤ (w + s) * k + 3 := by
  obtain ⟨ts, ss, hprogram, hread⟩ := reads_of_errors herrors
  rw [hprogram] at hplain ⊢
  simp only [every, Bool.and_eq_true] at hplain
  have hheight := height_program hs hread hplain.2
  rw [height]
  omega

end Scriptlet.Parser
