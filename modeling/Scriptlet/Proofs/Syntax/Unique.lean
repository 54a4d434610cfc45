import Scriptlet.Proofs.Syntax.Places
import Scriptlet.Proofs.Syntax.Spelling

/-!
# A text is the rendering of one tree only

The tokens that a tree of the grammar is written with tell the tree, up to places. Nothing separates
one expression statement from the next, and no parentheses stand around a condition. Still an
expression has one end only: what follows it may look like the arguments of a call, but a statement
that starts with a parenthesis has an operator in it where a call has a comma or its end.

* `Node.head`, `Node.calls`: an expression is its head, called with arguments again and again.
* `Unique`: no list of tokens below a length is written in two ways.
* `Unique.head`, `Unique.expression_of_notCall`: one head, and one expression, given that.
* `unique`: it holds of every length.
* `unplaced_of_render`: programs with the same text are equal but for their places.
-/

namespace Scriptlet.Syntax.Node

open Token (Kind)

/-- The tokens of a text without their places. -/
abbrev Tokens := List (Kind × String)

/-! ## Parts of the grammar -/

/-- An expression of the grammar. -/
def Phrase (n : Node) : Prop := n.isExpression ∧ n.every shaped

/-- Expressions of the grammar. -/
def Phrases (es : List Node) : Prop := es.all isExpression ∧ everyOf shaped es

/-- Statements of the grammar. -/
def Statements (ss : List Node) : Prop := ss.all isStatement ∧ everyOf shaped ss

section

variable {pos : Pos} {n e l r c t f body : Node} {es ss params args : List Node} {op : String}

theorem phrases_cons : Phrases (e :: es) ↔ e.Phrase ∧ Phrases es := by
  simp only [Phrases, Phrase, List.all_cons, everyOf, Bool.and_eq_true]
  exact and_and_and_comm

theorem statements_cons :
    Statements (n :: ss) ↔ (n.isStatement ∧ n.every shaped) ∧ Statements ss := by
  simp only [Statements, List.all_cons, everyOf, Bool.and_eq_true]
  exact and_and_and_comm

theorem Phrase.unary (h : (unary pos op e).Phrase) : op ∈ unaryOperators ∧ e.Phrase := by
  obtain ⟨-, h⟩ := h
  simp only [every, shaped, Bool.and_eq_true, List.contains_iff_mem] at h
  exact ⟨h.1.1, h.1.2, h.2⟩

theorem Phrase.binary (h : (binary pos l op r).Phrase) :
    op ∈ binaryOperators ∧ l.Phrase ∧ r.Phrase := by
  obtain ⟨-, h⟩ := h
  simp only [every, shaped, Bool.and_eq_true, List.contains_iff_mem] at h
  exact ⟨h.1.1.1.1, ⟨h.1.1.1.2, h.1.2⟩, h.1.1.2, h.2⟩

theorem statements_of_isBlock (hblock : n.isBlock) (h : n.every shaped) :
    ∃ pos ss, n = block pos ss ∧ Statements ss := by
  cases n with
  | block pos ss =>
    simp only [every, shaped, Bool.and_eq_true] at h
    exact ⟨pos, ss, rfl, h⟩
  | _ => cases hblock

theorem Phrase.conditional {e : Option Node} (h : (conditional pos c t e).Phrase) :
    c.Phrase ∧ (∃ pos ss, t = block pos ss ∧ Statements ss) ∧
      ∀ b, e = some b → ∃ pos ss, b = block pos ss ∧ Statements ss := by
  obtain ⟨-, h⟩ := h
  simp only [every, shaped, Bool.and_eq_true] at h
  refine ⟨⟨h.1.1.1.1.1, h.1.1.2⟩, statements_of_isBlock h.1.1.1.1.2 h.1.2, ?_⟩
  rintro b rfl
  exact statements_of_isBlock h.1.1.1.2 h.2

theorem Phrase.function (h : (function pos params body).Phrase) :
    Phrases params ∧ ∃ pos ss, body = block pos ss ∧ Statements ss := by
  obtain ⟨-, h⟩ := h
  simp only [every, shaped, Bool.and_eq_true] at h
  refine ⟨⟨?_, h.1.2⟩, statements_of_isBlock h.1.1.2 h.2⟩
  rw [List.all_eq_true]
  intro p hp
  have hname := List.all_eq_true.1 h.1.1.1 p hp
  cases p with
  | identifier => rfl
  | _ => cases hname

theorem Phrase.call (h : (call pos f args).Phrase) : f.Phrase ∧ Phrases args := by
  obtain ⟨-, h⟩ := h
  simp only [every, shaped, Bool.and_eq_true] at h
  exact ⟨⟨h.1.1.1, h.1.2⟩, h.1.1.2, h.2⟩

theorem phrase_binding {name : Node} (h : (binding pos name e).every shaped) :
    name.Phrase ∧ e.Phrase := by
  simp only [every, shaped, Bool.and_eq_true] at h
  refine ⟨⟨?_, h.1.2⟩, h.1.1.2, h.2⟩
  have hname := h.1.1.1
  cases name with
  | identifier => rfl
  | _ => cases hname

theorem phrase_returning (h : (returning pos e).every shaped) : e.Phrase := by
  simp only [every, shaped, Bool.and_eq_true] at h
  exact h

theorem phrase_statement (h : (statement pos e).every shaped) : e.Phrase := by
  simp only [every, shaped, Bool.and_eq_true] at h
  exact h

/-- An expression is written with a token of its own first. -/
theorem Phrase.spell (h : n.Phrase) : ∃ x xs, n.spell = x :: xs ∧ x.1 ∈ firstKinds := by
  obtain ⟨c, k, -, hfirst, -, -, hk⟩ := head_render n h.1 h.2
  obtain ⟨x, hx, rfl⟩ := Option.map_eq_some_iff.1 hfirst
  cases hs : n.spell with
  | nil =>
    rw [hs] at hx
    cases hx
  | cons y xs =>
    rw [hs] at hx
    cases hx
    exact ⟨x, xs, rfl, hk⟩

/-- A token that no expression starts with. -/
theorem Phrase.spell_ne (h : n.Phrase) {x : Kind × String} (hx : x.1 ∉ firstKinds) {X Y : Tokens} :
    n.spell ++ X ≠ x :: Y := by
  intro heq
  obtain ⟨y, ys, hspell, hy⟩ := h.spell
  rw [hspell] at heq
  rw [(List.cons.inj heq).1] at hy
  exact hx hy

end

/-! ## Heads and calls -/

/-- What an expression calls first, or the expression itself. -/
def head : Node → Node
  | call _ f _ => head f
  | n => n

/-- The arguments of the calls of the head of an expression, from the inside out. -/
def calls : Node → List (List Node)
  | call _ f args => calls f ++ [args]
  | _ => []

/-- The tokens of calls, one after the other. -/
def spellCalls : List (List Node) → Tokens
  | [] => []
  | args :: cs => (.lparen, "(") :: (spellList args ++ (.rparen, ")") :: spellCalls cs)

theorem spellCalls_append (cs ds : List (List Node)) :
    spellCalls (cs ++ ds) = spellCalls cs ++ spellCalls ds := by
  induction cs with
  | nil => rfl
  | cons args cs ih => simp [spellCalls, ih]

/-- **An expression is written as its head and its calls.** -/
theorem spell_eq_head_calls : (n : Node) → n.spell = n.head.spell ++ spellCalls n.calls
  | call _ f args => by
    have hf := spell_eq_head_calls f
    simp only [spell, head, calls, hf, spellCalls_append, spellCalls, List.append_assoc]
  | program .. | block .. | binding .. | returning .. | statement .. | identifier .. | integer ..
  | boolean .. | string .. | unary .. | binary .. | conditional .. | function .. | bare .. => by
    simp [head, calls, spellCalls]

/-- Without its places, an expression is its head with its calls around it. -/
theorem unplaced_eq_head_calls : (n : Node) →
    n.unplaced = (n.calls.map unplacedAll).foldl (call .unknown) n.head.unplaced
  | call _ f args => by
    have hf := unplaced_eq_head_calls f
    simp only [unplaced, head, calls, hf, List.map_append, List.map_cons, List.map_nil,
      List.foldl_append, List.foldl_cons, List.foldl_nil]
  | program .. | block .. | binding .. | returning .. | statement .. | identifier .. | integer ..
  | boolean .. | string .. | unary .. | binary .. | conditional .. | function .. | bare .. => rfl

theorem phrase_head : (n : Node) → n.Phrase →
    n.head.Phrase ∧ n.head.calls = [] ∧ ∀ args ∈ n.calls, Phrases args
  | call _ f args, h => by
    obtain ⟨hf, hargs⟩ := h.call
    obtain ⟨hhead, hnone, hcalls⟩ := phrase_head f hf
    refine ⟨hhead, hnone, ?_⟩
    intro as has
    rcases List.mem_append.1 has with hin | hlast
    · exact hcalls as hin
    · rw [List.mem_singleton.1 hlast]
      exact hargs
  | identifier .., h | integer .., h | boolean .., h | string .., h | unary .., h | binary .., h
  | conditional .., h | function .., h => ⟨h, rfl, fun _ h => by cases h⟩

/-! ## What follows -/

/-- What may follow an expression without going on with it: no arguments, and no other branch. -/
def Shut (X : Tokens) : Prop := ∀ x ∈ X.head?, x.1 ≠ .lparen ∧ x.1 ≠ .elseKey

/-- No other branch follows. -/
def Elseless (X : Tokens) : Prop := ∀ x ∈ X.head?, x.1 ≠ .elseKey

/-- The end of a block or of a text follows. -/
def Ended (X : Tokens) : Prop := ∀ x ∈ X.head?, x.1 = .rbrace

/-- No call follows. -/
def NotCall (X : Tokens) : Prop :=
  ∀ args Z, Phrases args → X ≠ (.lparen, "(") :: (spellList args ++ (.rparen, ")") :: Z)

section

variable {X Y Z : Tokens} {k : Kind} {s op : String}

theorem shut_cons (h : k ≠ .lparen ∧ k ≠ .elseKey) : Shut ((k, s) :: X) := by
  rintro _ ⟨⟩
  exact h

theorem Shut.elseless (h : Shut X) : Elseless X := fun x hx => (h x hx).2

theorem Shut.notCall (h : Shut X) : NotCall X := by
  rintro args Z - rfl
  exact (h _ rfl).1 rfl

theorem elseless_append {cs : List (List Node)} (h : Elseless X) :
    Elseless (spellCalls cs ++ X) := by
  cases cs with
  | nil => exact h
  | cons args cs =>
    rintro _ ⟨⟩
    decide

/-- An infix operator is neither a call nor another branch. -/
theorem shut_operator (h : op ∈ binaryOperators) : Shut ((operatorKind op, op) :: X) := by
  have hkind : ∀ op ∈ binaryOperators,
      operatorKind op ≠ .lparen ∧ operatorKind op ≠ .elseKey := by decide
  exact shut_cons (hkind op h)

theorem shut_more (es : List Node) : Shut (spellMore es ++ (.rparen, ")") :: X) := by
  cases es with
  | nil => exact shut_cons (by decide)
  | cons e es => exact shut_cons (by decide)

end

/-- A statement is written with a token first that neither ends a block nor starts another
branch. -/
theorem spell_statement {s : Node} (hs : s.isStatement) (h : s.every shaped) :
    ∃ x xs, s.spell = x :: xs ∧ x.1 ≠ .rbrace ∧ x.1 ≠ .elseKey := by
  cases s with
  | binding => exact ⟨_, _, rfl, by decide, by decide⟩
  | returning => exact ⟨_, _, rfl, by decide, by decide⟩
  | statement _ e =>
    obtain ⟨x, xs, hspell, hx⟩ := (phrase_statement h).spell
    have hkinds : ∀ k ∈ firstKinds, k ≠ .rbrace ∧ k ≠ .elseKey := by decide
    exact ⟨x, xs, hspell, hkinds x.1 hx⟩
  | _ => cases hs

theorem ended_ne_statements {s : Node} {ss : List Node} {X Y : Tokens} (hX : Ended X)
    (h : Statements (s :: ss)) : X ≠ spellAll (s :: ss) ++ Y := by
  rintro rfl
  obtain ⟨⟨hs, hshaped⟩, -⟩ := statements_cons.1 h
  obtain ⟨x, xs, hspell, hx, -⟩ := spell_statement hs hshaped
  exact hx (hX x (by rw [spellAll, hspell]; rfl))

theorem elseless_statements {ss : List Node} {X : Tokens} (h : Statements ss) (hX : Ended X) :
    Elseless (spellAll ss ++ X) := by
  intro x hx helse
  cases ss with
  | nil =>
    rw [hX x hx] at helse
    cases helse
  | cons s ss =>
    obtain ⟨⟨hs, hshaped⟩, -⟩ := statements_cons.1 h
    obtain ⟨y, ys, hspell, -, hy⟩ := spell_statement hs hshaped
    rw [spellAll, hspell] at hx
    cases hx
    exact hy helse

/-! ## Lists of tokens up to a length -/

/-- No list of fewer than `n` tokens is written in two ways, as an expression or as statements and
what follows. -/
structure Unique (n : Nat) : Prop where
  expression : ∀ {e e' : Node} {X Y : Tokens}, e.Phrase → e'.Phrase → Shut X → Shut Y →
    (e.spell ++ X).length < n → e.spell ++ X = e'.spell ++ Y →
    e'.unplaced = e.unplaced ∧ X = Y
  statements : ∀ {ss ss' : List Node} {X Y : Tokens}, Statements ss → Statements ss' → Ended X →
    Ended Y → (spellAll ss ++ X).length < n → spellAll ss ++ X = spellAll ss' ++ Y →
    unplacedAll ss' = unplacedAll ss ∧ X = Y

namespace Unique

variable {n : Nat} (h : Unique n) {X Y : Tokens}

include h

theorem more {es es' : List Node} (hes : Phrases es) (hes' : Phrases es')
    (hlen : (spellMore es ++ (Kind.rparen, ")") :: X).length ≤ n)
    (heq : spellMore es ++ (.rparen, ")") :: X = spellMore es' ++ (.rparen, ")") :: Y) :
    unplacedAll es' = unplacedAll es ∧ X = Y := by
  induction es generalizing es' with
  | nil =>
    cases es' with
    | nil => exact ⟨rfl, (List.cons.inj heq).2⟩
    | cons e' es' => cases (List.cons.inj heq).1
  | cons e es ih =>
    cases es' with
    | nil => cases (List.cons.inj heq).1
    | cons e' es' =>
      obtain ⟨he, hes⟩ := phrases_cons.1 hes
      obtain ⟨he', hes'⟩ := phrases_cons.1 hes'
      simp only [spellMore, List.cons_append, List.append_assoc] at heq hlen
      have hrest := (List.cons.inj heq).2
      obtain ⟨hfirst, hmore⟩ := h.expression he he' (shut_more es) (shut_more es') hlen hrest
      rw [List.length_cons, List.length_append] at hlen
      obtain ⟨hothers, hX⟩ := ih hes hes' (by omega) hmore
      exact ⟨by rw [unplacedAll, unplacedAll, hfirst, hothers], hX⟩

/-- The arguments of a call, or the parameters of a function. -/
theorem arguments {es es' : List Node} (hes : Phrases es) (hes' : Phrases es')
    (hlen : (spellList es ++ (Kind.rparen, ")") :: X).length < n)
    (heq : spellList es ++ (.rparen, ")") :: X = spellList es' ++ (.rparen, ")") :: Y) :
    unplacedAll es' = unplacedAll es ∧ X = Y := by
  cases es with
  | nil =>
    cases es' with
    | nil => exact ⟨rfl, (List.cons.inj heq).2⟩
    | cons e' es' =>
      rw [spellList, spellList, List.append_assoc] at heq
      exact absurd heq.symm ((phrases_cons.1 hes').1.spell_ne (by decide))
  | cons e es =>
    obtain ⟨he, hes⟩ := phrases_cons.1 hes
    cases es' with
    | nil =>
      rw [spellList, spellList, List.append_assoc] at heq
      exact absurd heq (he.spell_ne (by decide))
    | cons e' es' =>
      obtain ⟨he', hes'⟩ := phrases_cons.1 hes'
      rw [spellList, List.append_assoc] at hlen
      rw [spellList, spellList, List.append_assoc, List.append_assoc] at heq
      obtain ⟨hsame, hmore⟩ := h.expression he he' (shut_more es) (shut_more es') hlen heq
      rw [List.length_append] at hlen
      obtain ⟨hothers, hX⟩ := h.more hes hes' (by omega) hmore
      exact ⟨by rw [unplacedAll, unplacedAll, hsame, hothers], hX⟩

/-- The statements of a block, which is read up to its closing brace. -/
theorem block {ss ss' : List Node} (hss : Statements ss) (hss' : Statements ss')
    (hlen : (spellAll ss ++ (Kind.rbrace, "\x7d") :: X).length < n)
    (heq : spellAll ss ++ (.rbrace, "\x7d") :: X = spellAll ss' ++ (.rbrace, "\x7d") :: Y) :
    unplacedAll ss' = unplacedAll ss ∧ X = Y := by
  have hend (Z : Tokens) : Ended ((Kind.rbrace, "\x7d") :: Z) := by
    rintro _ ⟨⟩
    rfl
  obtain ⟨hsame, hX⟩ := h.statements hss hss' (hend X) (hend Y) hlen heq
  exact ⟨hsame, (List.cons.inj hX).2⟩

/-- The `else` part of a condition, or none. -/
theorem alternative {o o' : Option Node}
    (ho : ∀ b, o = some b → ∃ pos ss, b = .block pos ss ∧ Statements ss)
    (ho' : ∀ b, o' = some b → ∃ pos ss, b = .block pos ss ∧ Statements ss)
    (hX : Elseless X) (hY : Elseless Y) (hlen : (spellElse o ++ X).length ≤ n)
    (heq : spellElse o ++ X = spellElse o' ++ Y) : unplacedIn o' = unplacedIn o ∧ X = Y := by
  cases o with
  | none =>
    cases o' with
    | none => exact ⟨rfl, heq⟩
    | some b' =>
      have hhead : X.head? = some (.elseKey, "else") := by
        rw [show X = _ from heq]
        rfl
      exact absurd rfl (hX _ hhead)
  | some b =>
    cases o' with
    | none =>
      have hhead : Y.head? = some (.elseKey, "else") := by
        rw [show Y = _ from heq.symm]
        rfl
      exact absurd rfl (hY _ hhead)
    | some b' =>
      obtain ⟨pos, ss, rfl, hss⟩ := ho b rfl
      obtain ⟨pos', ss', rfl, hss'⟩ := ho' b' rfl
      simp only [spellElse, spell, List.cons_append, List.append_assoc, List.nil_append] at heq hlen
      have hinner := (List.cons.inj (List.cons.inj heq).2).2
      obtain ⟨hsame, hX⟩ := h.block hss hss' (Nat.lt_of_succ_lt hlen) hinner
      exact ⟨by simp only [unplacedIn, unplaced, hsame], hX⟩

end Unique

/-- The kind of the token that an expression without calls is written with first, where `true`
stands for both truth values. -/
def opening : Node → Kind
  | identifier .. => .ident
  | integer .. => .int
  | boolean .. => .trueKey
  | string .. => .string
  | unary .. | binary .. => .lparen
  | conditional .. => .ifKey
  | function .. => .function
  | _ => .eof

theorem opening_of_spell {e : Node} {x : Kind × String} {X Y : Tokens} (he : e.Phrase)
    (hcalls : e.calls = []) (h : e.spell ++ X = x :: Y) :
    e.opening = if x.1 = .falseKey then .trueKey else x.1 := by
  cases e with
  | identifier | integer | string | unary | binary | conditional | function =>
    rw [← (List.cons.inj h).1]
    rfl
  | boolean _ b =>
    rw [← (List.cons.inj h).1]
    cases b <;> rfl
  | call pos f args => simp [calls] at hcalls
  | _ => cases he.1

/-- A prefix operator is no first token of an expression, and closes none. -/
theorem operatorKind_unary_spec {op : String} (h : op ∈ unaryOperators) :
    operatorKind op ∉ firstKinds ∧ operatorKind op ≠ .rparen := by
  have hkind : ∀ op ∈ unaryOperators,
      operatorKind op ∉ firstKinds ∧ operatorKind op ≠ .rparen := by decide
  exact hkind op h

/-- An infix operator goes on with an expression, and neither closes one nor parts it from
another. -/
theorem operatorKind_binary_spec {op : String} (h : op ∈ binaryOperators) :
    operatorKind op ≠ .rparen ∧ operatorKind op ≠ .comma := by
  have hkind : ∀ op ∈ binaryOperators,
      operatorKind op ≠ .rparen ∧ operatorKind op ≠ .comma := by decide
  exact hkind op h

theorem integer_inj {v v' : Int} {p p' : Pos} (h : (integer p v).Phrase) (h' : (integer p' v').Phrase)
    (heq : toString v = toString v') : v' = v := by
  obtain ⟨-, h⟩ := h
  obtain ⟨-, h'⟩ := h'
  simp only [every, shaped, Bool.and_eq_true, decide_eq_true_eq] at h h'
  have hparse := Numeral.parse?_toString h.1 h.2
  rw [heq, Numeral.parse?_toString h'.1 h'.2] at hparse
  exact Option.some.inj hparse

namespace Unique

variable {n : Nat} (h : Unique n) {X Y : Tokens}

include h

theorem unary {p p' : Pos} {op op' : String} {e e' : Node} (he : (Node.unary p op e).Phrase)
    (he' : (Node.unary p' op' e').Phrase)
    (hlen : ((Node.unary p op e).spell ++ X).length ≤ n)
    (heq : (Node.unary p op e).spell ++ X = (Node.unary p' op' e').spell ++ Y) :
    (Node.unary p' op' e').unplaced = (Node.unary p op e).unplaced ∧ X = Y := by
  simp only [spell, List.cons_append, List.append_assoc, List.nil_append] at hlen heq
  obtain ⟨hop, hinner⟩ := List.cons.inj (List.cons.inj heq).2
  obtain ⟨hsame, hX⟩ := h.expression he.unary.2 he'.unary.2 (shut_cons (by decide))
    (shut_cons (by decide)) (Nat.lt_of_succ_lt hlen) hinner
  refine ⟨?_, (List.cons.inj hX).2⟩
  rw [unplaced, unplaced, hsame, (Prod.mk.inj hop).2]

theorem binary {p p' : Pos} {op op' : String} {l l' r r' : Node}
    (he : (Node.binary p l op r).Phrase) (he' : (Node.binary p' l' op' r').Phrase)
    (hlen : ((Node.binary p l op r).spell ++ X).length ≤ n)
    (heq : (Node.binary p l op r).spell ++ X = (Node.binary p' l' op' r').spell ++ Y) :
    (Node.binary p' l' op' r').unplaced = (Node.binary p l op r).unplaced ∧ X = Y := by
  obtain ⟨hop, hl, hr⟩ := he.binary
  obtain ⟨hop', hl', hr'⟩ := he'.binary
  simp only [spell, List.cons_append, List.append_assoc, List.nil_append] at hlen heq
  obtain ⟨hleft, hrest⟩ := h.expression hl hl' (shut_operator hop) (shut_operator hop') hlen
    (List.cons.inj heq).2
  obtain ⟨hsign, hinner⟩ := List.cons.inj hrest
  rw [List.length_cons, List.length_append, List.length_cons] at hlen
  obtain ⟨hright, hX⟩ := h.expression hr hr' (shut_cons (by decide)) (shut_cons (by decide))
    (by omega) hinner
  refine ⟨?_, (List.cons.inj hX).2⟩
  rw [unplaced, unplaced, hleft, hright, (Prod.mk.inj hsign).2]

theorem conditional {p p' : Pos} {c c' t t' : Node} {o o' : Option Node}
    (he : (Node.conditional p c t o).Phrase) (he' : (Node.conditional p' c' t' o').Phrase)
    (hX : Elseless X) (hY : Elseless Y)
    (hlen : ((Node.conditional p c t o).spell ++ X).length ≤ n)
    (heq : (Node.conditional p c t o).spell ++ X = (Node.conditional p' c' t' o').spell ++ Y) :
    (Node.conditional p' c' t' o').unplaced = (Node.conditional p c t o).unplaced ∧ X = Y := by
  -- no parentheses stand around the condition, but the brace of the block ends it
  obtain ⟨hc, ⟨q, ss, rfl, hss⟩, ho⟩ := he.conditional
  obtain ⟨hc', ⟨q', ss', rfl, hss'⟩, ho'⟩ := he'.conditional
  simp only [spell, List.cons_append, List.append_assoc] at hlen heq
  obtain ⟨hcond, hrest⟩ := h.expression hc hc' (shut_cons (by decide)) (shut_cons (by decide)) hlen
    (List.cons.inj heq).2
  rw [List.length_cons, List.length_append, List.length_cons] at hlen
  obtain ⟨hbody, hrest⟩ := h.block hss hss' (by omega) (List.cons.inj hrest).2
  rw [List.length_append, List.length_cons] at hlen
  obtain ⟨hother, hend⟩ := h.alternative ho ho' hX hY (by omega) hrest
  refine ⟨?_, hend⟩
  simp only [unplaced, hcond, hbody, hother]

theorem function {p p' : Pos} {params params' : List Node} {body body' : Node}
    (he : (Node.function p params body).Phrase) (he' : (Node.function p' params' body').Phrase)
    (hlen : ((Node.function p params body).spell ++ X).length ≤ n)
    (heq : (Node.function p params body).spell ++ X = (Node.function p' params' body').spell ++ Y) :
    (Node.function p' params' body').unplaced = (Node.function p params body).unplaced ∧ X = Y := by
  obtain ⟨hparams, q, ss, rfl, hss⟩ := he.function
  obtain ⟨hparams', q', ss', rfl, hss'⟩ := he'.function
  simp only [spell, List.cons_append, List.append_assoc, List.nil_append] at hlen heq
  obtain ⟨hnames, hrest⟩ := h.arguments hparams hparams' (Nat.lt_of_succ_lt hlen)
    (List.cons.inj (List.cons.inj heq).2).2
  rw [List.length_cons, List.length_cons, List.length_append, List.length_cons,
    List.length_cons] at hlen
  obtain ⟨hbody, hend⟩ := h.block hss hss' (by omega) (List.cons.inj hrest).2
  refine ⟨?_, hend⟩
  simp only [unplaced, hnames, hbody]

/-- **An expression without calls is written in one way**, whatever follows but another branch. -/
theorem head {e e' : Node} (he : e.Phrase) (he' : e'.Phrase) (hcalls : e.calls = [])
    (hcalls' : e'.calls = []) (hX : Elseless X) (hY : Elseless Y)
    (hlen : (e.spell ++ X).length ≤ n) (heq : e.spell ++ X = e'.spell ++ Y) :
    e'.unplaced = e.unplaced ∧ X = Y := by
  -- the first token tells the sort of the expression, but for prefix and infix expressions
  have hopening : e'.opening = e.opening := by
    obtain ⟨x, xs, hspell, -⟩ := he.spell
    have hfirst : e.spell ++ X = x :: (xs ++ X) := by rw [hspell, List.cons_append]
    rw [opening_of_spell he hcalls hfirst, opening_of_spell he' hcalls' (heq ▸ hfirst)]
  cases e with
  | identifier _ name =>
    cases e' with
    | identifier _ name' =>
      obtain ⟨hname, hrest⟩ := List.cons.inj heq
      rw [unplaced, unplaced, (Prod.mk.inj hname).2]
      exact ⟨rfl, hrest⟩
    | _ => cases hopening
  | integer _ v =>
    cases e' with
    | integer _ v' =>
      obtain ⟨hdigits, hrest⟩ := List.cons.inj heq
      rw [unplaced, unplaced, integer_inj he he' (Prod.mk.inj hdigits).2]
      exact ⟨rfl, hrest⟩
    | _ => cases hopening
  | boolean _ b =>
    cases e' with
    | boolean _ b' =>
      obtain ⟨hword, hrest⟩ := List.cons.inj heq
      have hb : b' = b := by
        revert hword
        cases b <;> cases b' <;> decide
      rw [unplaced, unplaced, hb]
      exact ⟨rfl, hrest⟩
    | _ => cases hopening
  | string _ s =>
    cases e' with
    | string _ s' =>
      obtain ⟨htext, hrest⟩ := List.cons.inj heq
      rw [unplaced, unplaced, (Prod.mk.inj htext).2]
      exact ⟨rfl, hrest⟩
    | _ => cases hopening
  | unary _ op o =>
    cases e' with
    | unary => exact h.unary he he' hlen heq
    | binary _ l op' r =>
      simp only [spell, List.cons_append, List.append_assoc] at heq
      exact absurd (List.cons.inj heq).2.symm
        (he'.binary.2.1.spell_ne (operatorKind_unary_spec he.unary.1).1)
    | _ => cases hopening
  | binary _ l op r =>
    cases e' with
    | unary _ op' o' =>
      simp only [spell, List.cons_append, List.append_assoc] at heq
      exact absurd (List.cons.inj heq).2
        (he.binary.2.1.spell_ne (operatorKind_unary_spec he'.unary.1).1)
    | binary => exact h.binary he he' hlen heq
    | _ => cases hopening
  | conditional =>
    cases e' with
    | conditional => exact h.conditional he he' hX hY hlen heq
    | _ => cases hopening
  | function =>
    cases e' with
    | function => exact h.function he he' hlen heq
    | _ => cases hopening
  | call pos f args => simp [calls] at hcalls
  | _ => cases he.1

/-! ### Expressions with their calls -/

theorem calls {cs cs' : List (List Node)} (hcs : ∀ args ∈ cs, Phrases args)
    (hcs' : ∀ args ∈ cs', Phrases args) (hX : NotCall X) (hY : NotCall Y)
    (hlen : (spellCalls cs ++ X).length ≤ n) (heq : spellCalls cs ++ X = spellCalls cs' ++ Y) :
    cs'.map unplacedAll = cs.map unplacedAll ∧ X = Y := by
  induction cs generalizing cs' with
  | nil =>
    cases cs' with
    | nil => exact ⟨rfl, heq⟩
    | cons args' cs' =>
      -- one side has a call where the other one has what follows
      simp only [spellCalls, List.nil_append, List.cons_append, List.append_assoc] at heq
      exact absurd heq (hX args' _ (hcs' args' List.mem_cons_self))
  | cons args cs ih =>
    simp only [spellCalls, List.cons_append, List.append_assoc] at hlen
    cases cs' with
    | nil =>
      simp only [spellCalls, List.nil_append, List.cons_append, List.append_assoc] at heq
      exact absurd heq.symm (hY args _ (hcs args List.mem_cons_self))
    | cons args' cs' =>
      rw [List.forall_mem_cons] at hcs hcs'
      simp only [spellCalls, List.cons_append, List.append_assoc] at heq
      obtain ⟨hsame, hrest⟩ := h.arguments hcs.1 hcs'.1 hlen (List.cons.inj heq).2
      rw [List.length_cons, List.length_append, List.length_cons] at hlen
      obtain ⟨hothers, hX⟩ := ih hcs.2 hcs'.2 (by omega) hrest
      exact ⟨by rw [List.map_cons, List.map_cons, hsame, hothers], hX⟩

/-- **An expression is written in one way**, if neither another call nor another branch follows. -/
theorem expression_of_notCall {e e' : Node} (he : e.Phrase) (he' : e'.Phrase) (hX : NotCall X)
    (hY : NotCall Y) (helseX : Elseless X) (helseY : Elseless Y)
    (hlen : (e.spell ++ X).length ≤ n) (heq : e.spell ++ X = e'.spell ++ Y) :
    e'.unplaced = e.unplaced ∧ X = Y := by
  obtain ⟨hhead, hnone, hcalls⟩ := phrase_head e he
  obtain ⟨hhead', hnone', hcalls'⟩ := phrase_head e' he'
  rw [spell_eq_head_calls e, List.append_assoc] at hlen heq
  rw [spell_eq_head_calls e', List.append_assoc] at heq
  obtain ⟨hsame, hrest⟩ := h.head hhead hhead' hnone hnone' (elseless_append helseX)
    (elseless_append helseY) hlen heq
  rw [List.length_append] at hlen
  obtain ⟨hargs, hX⟩ := h.calls hcalls hcalls' hX hY (by omega) hrest
  exact ⟨by rw [unplaced_eq_head_calls e, unplaced_eq_head_calls e', hsame, hargs], hX⟩

/-! ### Statements -/

/-- A head that starts with a parenthesis is a prefix or an infix expression. What comes after the
parenthesis, or after the first operand, is no argument and no end of arguments. -/
theorem head_ne_call {e : Node} (he : e.Phrase) (hcalls : e.calls = []) {args : List Node}
    (hargs : Phrases args) (hlen : (e.spell ++ X).length ≤ n) :
    e.spell ++ X ≠ (.lparen, "(") :: (spellList args ++ (.rparen, ")") :: Y) := by
  intro heq
  have hopening := opening_of_spell he hcalls heq
  cases e with
  | unary _ op o =>
    have hkind := operatorKind_unary_spec he.unary.1
    simp only [spell, List.cons_append, List.append_assoc] at heq
    have hinner := (List.cons.inj heq).2
    cases args with
    | nil => exact hkind.2 (Prod.mk.inj (List.cons.inj hinner).1).1
    | cons a args =>
      rw [spellList, List.append_assoc] at hinner
      exact (phrases_cons.1 hargs).1.spell_ne hkind.1 hinner.symm
  | binary _ l op r =>
    obtain ⟨hop, hl, -⟩ := he.binary
    have hkind := operatorKind_binary_spec hop
    simp only [spell, List.cons_append, List.append_assoc] at heq hlen
    have hinner := (List.cons.inj heq).2
    cases args with
    | nil => exact hl.spell_ne (by decide) hinner
    | cons a args =>
      rw [spellList, List.append_assoc] at hinner
      obtain ⟨-, hrest⟩ := h.expression hl (phrases_cons.1 hargs).1 (shut_operator hop)
        (shut_more args) hlen hinner
      cases args with
      | nil => exact hkind.1 (Prod.mk.inj (List.cons.inj hrest).1).1
      | cons => exact hkind.2 (Prod.mk.inj (List.cons.inj hrest).1).1
  | call pos f as => simp [Node.calls] at hcalls
  | _ => cases hopening

/-- **Statements do not look like a call.** -/
theorem notCall_statements {ss : List Node} (hss : Statements ss) (hX : Ended X)
    (hlen : (spellAll ss ++ X).length ≤ n) : NotCall (spellAll ss ++ X) := by
  intro args Z hargs heq
  cases ss with
  | nil =>
    have hhead : X.head? = some (.lparen, "(") := by
      rw [show X = _ from heq]
      rfl
    cases hX _ hhead
  | cons s ss =>
    obtain ⟨⟨hs, hshaped⟩, -⟩ := statements_cons.1 hss
    cases s with
    | binding => cases (List.cons.inj heq).1
    | returning => cases (List.cons.inj heq).1
    | statement _ e =>
      simp only [every, shaped, Bool.and_eq_true] at hshaped
      -- what is called comes first, so its head decides
      obtain ⟨hhead, hnone, -⟩ := phrase_head e hshaped
      rw [spellAll, spell, spell_eq_head_calls e, List.append_assoc, List.append_assoc] at heq hlen
      exact h.head_ne_call hhead hnone hargs hlen heq
    | _ => cases hs

/-- One statement, with others or the end behind it. -/
theorem statement {s s' : Node} (hs : s.isStatement ∧ s.every shaped)
    (hs' : s'.isStatement ∧ s'.every shaped) (hX : NotCall X) (hY : NotCall Y)
    (helseX : Elseless X) (helseY : Elseless Y) (hlen : (s.spell ++ X).length ≤ n)
    (heq : s.spell ++ X = s'.spell ++ Y) : s'.unplaced = s.unplaced ∧ X = Y := by
  obtain ⟨hs, hshaped⟩ := hs
  obtain ⟨hs', hshaped'⟩ := hs'
  cases s with
  | binding _ name value =>
    obtain ⟨hname, hvalue⟩ := phrase_binding hshaped
    cases s' with
    | binding _ name' value' =>
      obtain ⟨hname', hvalue'⟩ := phrase_binding hshaped'
      simp only [spell, List.cons_append, List.append_assoc, List.nil_append] at hlen heq
      obtain ⟨hsame, hrest⟩ := h.expression hname hname' (shut_cons (by decide))
        (shut_cons (by decide)) hlen (List.cons.inj heq).2
      rw [List.length_cons, List.length_append, List.length_cons] at hlen
      obtain ⟨hsame', hrest⟩ := h.expression hvalue hvalue' (shut_cons (by decide))
        (shut_cons (by decide)) (by omega) (List.cons.inj hrest).2
      exact ⟨by rw [unplaced, unplaced, hsame, hsame'], (List.cons.inj hrest).2⟩
    | returning => cases (List.cons.inj heq).1
    | statement _ e' =>
      exact absurd heq.symm ((phrase_statement hshaped').spell_ne (by decide))
    | _ => cases hs'
  | returning _ value =>
    cases s' with
    | binding => cases (List.cons.inj heq).1
    | returning _ value' =>
      simp only [spell, List.cons_append, List.append_assoc, List.nil_append] at hlen heq
      obtain ⟨hsame, hrest⟩ := h.expression (phrase_returning hshaped) (phrase_returning hshaped')
        (shut_cons (by decide)) (shut_cons (by decide)) hlen (List.cons.inj heq).2
      exact ⟨by rw [unplaced, unplaced, hsame], (List.cons.inj hrest).2⟩
    | statement _ e' =>
      exact absurd heq.symm ((phrase_statement hshaped').spell_ne (by decide))
    | _ => cases hs'
  | statement _ e =>
    have he := phrase_statement hshaped
    cases s' with
    | binding => exact absurd heq (he.spell_ne (by decide))
    | returning => exact absurd heq (he.spell_ne (by decide))
    | statement _ e' =>
      obtain ⟨hsame, hrest⟩ := h.expression_of_notCall he (phrase_statement hshaped') hX hY helseX
        helseY hlen heq
      exact ⟨by rw [unplaced, unplaced, hsame], hrest⟩
    | _ => cases hs'
  | _ => cases hs

/-- **Statements are written in one way**, up to the end of their block or text. -/
theorem statements_of_le {ss ss' : List Node} (hss : Statements ss) (hss' : Statements ss')
    (hX : Ended X) (hY : Ended Y) (hlen : (spellAll ss ++ X).length ≤ n)
    (heq : spellAll ss ++ X = spellAll ss' ++ Y) : unplacedAll ss' = unplacedAll ss ∧ X = Y := by
  induction ss generalizing ss' with
  | nil =>
    cases ss' with
    | nil => exact ⟨rfl, heq⟩
    | cons s' ss' => exact absurd heq (ended_ne_statements hX hss')
  | cons s ss ih =>
    cases ss' with
    | nil => exact absurd heq.symm (ended_ne_statements hY hss)
    | cons s' ss' =>
      obtain ⟨hs, hss⟩ := statements_cons.1 hss
      obtain ⟨hs', hss'⟩ := statements_cons.1 hss'
      have hlen' : (spellAll ss' ++ Y).length ≤ n := by
        rw [heq, spellAll, List.append_assoc, List.length_append] at hlen
        omega
      rw [spellAll, List.append_assoc] at hlen heq
      rw [spellAll, List.append_assoc] at heq
      have hlen₁ := hlen
      rw [List.length_append] at hlen₁
      obtain ⟨hsame, hrest⟩ := h.statement hs hs' (h.notCall_statements hss hX (by omega))
        (h.notCall_statements hss' hY hlen') (elseless_statements hss hX)
        (elseless_statements hss' hY) hlen heq
      obtain ⟨hothers, hend⟩ := ih hss hss' (by omega) hrest
      exact ⟨by rw [unplacedAll, unplacedAll, hsame, hothers], hend⟩

end Unique

/-- **No list of tokens is written in two ways**, by induction on its length. -/
theorem unique (n : Nat) : Unique n := by
  induction n with
  | zero => exact ⟨fun _ _ _ _ hlen => absurd hlen (Nat.not_lt_zero _),
      fun _ _ _ _ hlen => absurd hlen (Nat.not_lt_zero _)⟩
  | succ n ih =>
    -- a tree is written with more tokens than any tree under it, so fewer than `n` are enough
    constructor
    · intro e e' X Y he he' hX hY hlen heq
      exact ih.expression_of_notCall he he' hX.notCall hY.notCall hX.elseless hY.elseless
        (Nat.le_of_lt_succ hlen) heq
    · intro ss ss' X Y hss hss' hX hY hlen heq
      exact ih.statements_of_le hss hss' hX hY (Nat.le_of_lt_succ hlen) heq

/-- **Programs with the same text are equal but for their places.** -/
theorem unplaced_of_render {p p' : Node} (hp : p.isProgram) (hp' : p'.isProgram)
    (hshaped : p.every shaped) (hshaped' : p'.every shaped) (h : p.render = p'.render) :
    p'.unplaced = p.unplaced := by
  have htokens := map_bare_scan_render hshaped
  rw [h, map_bare_scan_render hshaped'] at htokens
  have hspell := List.append_cancel_right htokens
  cases p with
  | program _ ss =>
    cases p' with
    | program _ ss' =>
      simp only [every, shaped, Bool.and_eq_true] at hshaped hshaped'
      have hend : Ended [] := fun x hx => by cases hx
      have heq : spellAll ss ++ [] = spellAll ss' ++ [] := by
        rw [List.append_nil, List.append_nil]
        exact hspell.symm
      obtain ⟨hsame, -⟩ := (unique _).statements hshaped hshaped' hend hend (Nat.lt_succ_self _) heq
      rw [unplaced, unplaced, hsame]
    | _ => cases hp'
  | _ => cases hp

end Scriptlet.Syntax.Node
