import Scriptlet.Proofs.Parser.Exact
import Scriptlet.Proofs.Syntax.Spelling

/-!
# Writing a tree and reading it back

The tokens of a tree are read as that tree, wherever they stand. A parenthesised expression, a
call and what else an expression can begin with are all read the same way: as what has been read so
far, which the tokens after it may extend. That is `Legible`.

* `Legible`: the tokens of an expression are read as that expression.
* `legible`: every expression of the grammar is, if its conditions are bracketed and its statements
  apart.
* `parse_render`: a program that is written and parsed again gives the same program.
-/

namespace Scriptlet.Syntax.Node

open Scriptlet.Parser
open Token (Kind)

/-! ## Trees that are the same -/

section

variable {p q : Pos} {a b c d : Node} {s s' : String} {as bs : List Node} {e f : Option Node}

@[simp] theorem same_binding :
    (binding p a c).same (binding q b d) = (a.same b && c.same d) := rfl

@[simp] theorem same_returning : (returning p a).same (returning q b) = a.same b := rfl

@[simp] theorem same_statement : (statement p a).same (statement q b) = a.same b := rfl

@[simp] theorem same_identifier : (identifier p s).same (identifier q s') = (s == s') := rfl

@[simp] theorem same_integer {m n : Int} : (integer p m).same (integer q n) = (m == n) := rfl

@[simp] theorem same_string : (string p s).same (string q s') = (s == s') := rfl

@[simp] theorem same_unary : (unary p s a).same (unary q s' b) = (s == s' && a.same b) := rfl

@[simp] theorem same_binary :
    (binary p a s c).same (binary q b s' d) = (a.same b && s == s' && c.same d) := rfl

@[simp] theorem same_conditional : (conditional p a c e).same (conditional q b d f) =
    (a.same b && c.same d && sameOption e f) := rfl

@[simp] theorem same_function :
    (function p as a).same (function q bs b) = (sameAll as bs && a.same b) := rfl

@[simp] theorem same_call :
    (call p a as).same (call q b bs) = (a.same b && sameAll as bs) := rfl

@[simp] theorem sameAll_cons : sameAll (a :: as) (b :: bs) = (a.same b && sameAll as bs) := rfl

end

/-! ## Tokens that spell a text -/

/-- The tokens `us` have these kinds and texts. -/
def Spells (us : List Token) (ks : List (Kind × String)) : Prop := us.map Token.bare = ks

section

variable {us : List Token} {k : Kind} {s : String} {ks ls : List (Kind × String)}

theorem spells_nil : Spells us [] ↔ us = [] := List.map_eq_nil_iff

theorem spells_cons :
    Spells us ((k, s) :: ks) ↔ ∃ t vs, us = t :: vs ∧ t.kind = k ∧ t.text = s ∧ Spells vs ks := by
  simp [Spells, List.map_eq_cons_iff, Token.bare, and_assoc]

theorem spells_append :
    Spells us (ks ++ ls) ↔ ∃ vs ws, us = vs ++ ws ∧ Spells vs ks ∧ Spells ws ls :=
  List.map_eq_append_iff

end

/-- Whether a node can be written and read back: it is one of the grammar, a condition is
bracketed, and statements are apart. -/
def renderable (n : Node) : Bool := n.shaped && n.bracketed && n.separated

/-- No `else` comes next. -/
def NoElse (r : List Token) : Prop := ∀ t ∈ r.head?, t.kind ≠ .elseKey

/-- The tokens of the expression `n` are read as `n`. -/
def Legible (n : Node) : Prop :=
  ∀ b us, Spells us n.spell → us.length ≤ b + 1 →
    ∃ e, e.same n ∧ ∀ r, NoElse r → Reads.Opens b (us ++ r) r e

/-- The tokens of `n` are parentheses around what is read as `n`. -/
def Enclosed (n : Node) : Prop :=
  ∀ b us, Spells us n.spell → us.length ≤ b + 1 →
    ∃ l ts p e, us = l :: (ts ++ [p]) ∧ l.kind = .lparen ∧ p.kind = .rparen ∧ e.same n ∧
      ∀ r, Reads.Expression b Kind.lowestPower (ts ++ p :: r) (p :: r) e

section

variable {b : Nat} {us : List Token} {n e l r : Node} {pos : Pos} {op : String}

/-- An expression ends before these tokens, whatever it is. -/
def Stops (power : Nat) (r : List Token) : Prop := Reads.Ends power r ∧ NoElse r

theorem reads_of_opens {power : Nat} {r : List Token}
    (h : ∀ r, NoElse r → Reads.Opens b (us ++ r) r e) (hp : power ≤ Kind.prefixPower)
    (hr : Stops power r) : Reads.Expression (b + 1) power (us ++ r) r e :=
  (h r hr.2).reads hp hr.1

theorem noElse_cons {t : Token} {ts : List Token} (h : t.kind ≠ .elseKey) : NoElse (t :: ts) := by
  rintro _ ⟨⟩
  exact h

theorem stops_cons {power : Nat} {t : Token} {ts : List Token} {k : Kind} (hk : t.kind = k)
    (hi : k.isInfix = false) (h : k ≠ .lparen ∧ k ≠ .elseKey) : Stops power (t :: ts) := by
  subst hk
  refine ⟨?_, noElse_cons h.2⟩
  rintro _ ⟨⟩ ⟨hc | hc, -⟩
  · rw [hi] at hc
    cases hc
  · exact h.1 hc

/-! ## Operators -/

theorem Enclosed.legible (h : Enclosed n) : Legible n := by
  intro b us hus hb
  obtain ⟨l, ts, p, e, rfl, hl, hp, he, hr⟩ := h b us hus hb
  refine ⟨e, he, fun r _ => .of_start ?_⟩
  rw [List.cons_append, List.append_assoc]
  exact .group hl (hr r) hp

theorem operatorKind_unary (h : op ∈ unaryOperators) :
    operatorKind op = .bang ∨ operatorKind op = .minus := by
  simp only [unaryOperators, List.mem_cons, List.not_mem_nil, or_false] at h
  rcases h with rfl | rfl
  · exact .inl rfl
  · exact .inr rfl

theorem operatorKind_binary (h : op ∈ binaryOperators) :
    (operatorKind op).isInfix ∧ Kind.lowestPower < (operatorKind op).power ∧
      (operatorKind op).power ≤ Kind.prefixPower := by
  have : ∀ op ∈ binaryOperators, (operatorKind op).isInfix ∧
      Kind.lowestPower < (operatorKind op).power ∧
      (operatorKind op).power ≤ Kind.prefixPower := by decide
  exact this op h

theorem enclosed_unary (hop : op ∈ unaryOperators) (he : Legible e) :
    Enclosed (unary pos op e) := by
  intro b us hus hb
  simp only [spell, spells_cons, spells_append, spells_nil] at hus
  obtain ⟨l, _, rfl, hl, -, o, _, rfl, ho, hot, es, _, rfl, hes, p, _, rfl, hp, -, rfl⟩ := hus
  simp only [List.length_cons, List.length_append, List.length_nil] at hb
  obtain ⟨b, rfl⟩ : ∃ c, b = c + 2 := ⟨b - 2, by omega⟩
  obtain ⟨e', he', hx⟩ := he b es hes (by omega)
  refine ⟨l, o :: es, p, unary o.pos o.text e', rfl, hl, hp, by simp [hot, he'], fun r => ?_⟩
  have hr : Stops Kind.prefixPower (p :: r) := stops_cons hp rfl (by decide)
  have hs : Reads.Start (Reads.Expression (b + 1)) (o :: (es ++ p :: r)) (p :: r) _ :=
    .unary (ho ▸ operatorKind_unary hop) (reads_of_opens hx (Nat.le_refl _) hr)
  exact ⟨_, _, hs, .done (stops_cons hp rfl (by decide)).1⟩

theorem enclosed_binary (hop : op ∈ binaryOperators) (hl : Legible l) (hr : Legible r) :
    Enclosed (binary pos l op r) := by
  intro b us hus hb
  simp only [spell, spells_cons, spells_append, spells_nil] at hus
  obtain ⟨q, _, rfl, hq, -, ls, _, rfl, hls, o, _, rfl, ho, hot, rs, _, rfl, hrs, p, _, rfl, hp, -,
    rfl⟩ := hus
  simp only [List.length_cons, List.length_append, List.length_nil] at hb
  obtain ⟨b, rfl⟩ : ∃ c, b = c + 2 := ⟨b - 2, by omega⟩
  obtain ⟨l', hl', hlx⟩ := hl (b + 1) ls hls (by omega)
  obtain ⟨r', hr', hrx⟩ := hr b rs hrs (by omega)
  obtain ⟨hi, hlow, hhigh⟩ := operatorKind_binary hop
  rw [← ho] at hi hlow hhigh
  refine ⟨q, ls ++ o :: rs, p, binary o.pos l' o.text r', by simp, hq, hp,
    by simp [hot, hl', hr'], fun r => ?_⟩
  rw [List.append_assoc]
  refine hlx _ (noElse_cons fun h => by rw [h] at hi; cases hi) _ _ _ (by decide) ?_
  exact .binary hi hlow (reads_of_opens hrx hhigh (stops_cons hp rfl (by decide)))
    (.done (stops_cons hp rfl (by decide)).1)

/-! ## Names and literals -/

theorem legible_identifier {name : String} : Legible (identifier pos name) := by
  intro b us hus _
  simp only [spell, spells_cons, spells_nil] at hus
  obtain ⟨t, _, rfl, hk, ht, rfl⟩ := hus
  exact ⟨_, by simp [ht], fun _ _ => .of_start <| .identifier hk⟩

theorem legible_integer {k : Int} (h₀ : 0 ≤ k) (h₁ : k ≤ Word.greatest) :
    Legible (integer pos k) := by
  intro b us hus _
  simp only [spell, spells_cons, spells_nil] at hus
  obtain ⟨t, _, rfl, hk, ht, rfl⟩ := hus
  have hv := Numeral.parse?_toString h₀ h₁
  rw [← ht] at hv
  exact ⟨_, by simp, fun _ _ => .of_start <| .integer hk hv h₁⟩

theorem legible_boolean {v : Bool} : Legible (boolean pos v) := by
  intro b us hus _
  have hv : (if v then (Kind.trueKey, "true") else (.falseKey, "false")) =
      (if v then Kind.trueKey else .falseKey, if v then "true" else "false") := by cases v <;> rfl
  simp only [spell, hv, spells_cons, spells_nil] at hus
  obtain ⟨t, _, rfl, hk, -, rfl⟩ := hus
  refine ⟨_, ?_, fun _ _ => .of_start <| .boolean (by rw [hk]; cases v <;> simp)⟩
  rw [hk]
  cases v <;> rfl

theorem legible_string {s : String} : Legible (string pos s) := by
  intro b us hus _
  simp only [spell, spells_cons, spells_nil] at hus
  obtain ⟨t, _, rfl, hk, ht, rfl⟩ := hus
  exact ⟨_, by simp [ht], fun _ _ => .of_start <| .string hk⟩

/-! ## Calls -/

variable {args : List Node} {p : Token}

theorem stops_more {power : Nat} {rest : List Token} (hus : Spells us (spellMore args))
    (hp : p.kind = .rparen) : Stops power (us ++ p :: rest) := by
  cases args with
  | nil =>
    rw [spells_nil.1 hus]
    exact stops_cons hp rfl (by decide)
  | cons a args =>
    obtain ⟨c, _, rfl, hc, -⟩ := spells_cons.1 hus
    exact stops_cons hc rfl (by decide)

theorem reads_moreArguments (h : ∀ a ∈ args, Legible a) (hp : p.kind = .rparen) :
    Spells us (spellMore args) → us.length ≤ b → ∃ es, sameAll es args ∧
      ∀ rest, Reads.MoreArguments (Reads.Expression b) (us ++ p :: rest) rest es := by
  induction args generalizing us with
  | nil =>
    intro hus _
    rw [spells_nil.1 hus]
    exact ⟨[], rfl, fun _ => .done hp⟩
  | cons a args ih =>
    intro hus hb
    simp only [spellMore, spells_cons, spells_append] at hus
    obtain ⟨c, _, rfl, hc, -, vs, ws, rfl, hvs, hws⟩ := hus
    simp only [List.length_cons, List.length_append] at hb
    obtain ⟨b, rfl⟩ : ∃ d, b = d + 1 := ⟨b - 1, by omega⟩
    obtain ⟨e, he, hx⟩ := h a (by simp) b vs hvs (by omega)
    obtain ⟨es, hes, hm⟩ := ih (fun a ha => h a (by simp [ha])) hws (by omega)
    refine ⟨e :: es, by simp [he, hes], fun rest => ?_⟩
    rw [List.cons_append, List.append_assoc]
    exact .more hc (reads_of_opens hx (by decide) (stops_more hws hp)) (hm rest)

theorem reads_arguments (h : ∀ a ∈ args, Legible a) (hp : p.kind = .rparen)
    (hus : Spells us (spellList args)) (hb : us.length < b) : ∃ es, sameAll es args ∧
      ∀ rest, Reads.Arguments (Reads.Expression b) (us ++ p :: rest) rest es := by
  cases args with
  | nil =>
    rw [spells_nil.1 hus]
    exact ⟨[], rfl, fun _ => .none hp⟩
  | cons a args =>
    obtain ⟨vs, ws, rfl, hvs, hws⟩ := spells_append.1 hus
    rw [List.length_append] at hb
    obtain ⟨b, rfl⟩ : ∃ d, b = d + 1 := ⟨b - 1, by omega⟩
    obtain ⟨e, he, hx⟩ := h a (by simp) b vs hvs (by omega)
    obtain ⟨es, hes, hm⟩ :=
      reads_moreArguments (b := b + 1) (fun a ha => h a (by simp [ha])) hp hws (by omega)
    refine ⟨e :: es, by simp [he, hes], fun rest => ?_⟩
    rw [List.append_assoc]
    exact .some (reads_of_opens hx (by decide) (stops_more hws hp)) (hm rest)

theorem legible_call (hf : Legible n) (ha : ∀ a ∈ args, Legible a) :
    Legible (call pos n args) := by
  intro b us hus hb
  simp only [spell, spells_cons, spells_append, spells_nil] at hus
  obtain ⟨fs, _, rfl, hfs, q, _, rfl, hq, -, as, _, rfl, has, p, _, rfl, hp, -, rfl⟩ := hus
  simp only [List.length_cons, List.length_append, List.length_nil] at hb
  obtain ⟨f, hf', hfx⟩ := hf b fs hfs (by omega)
  obtain ⟨es, hes, hargs⟩ := reads_arguments (b := b) ha hp has (by omega)
  refine ⟨call q.pos f es, by simp [hf', hes], fun r _ power r' x hpow hx => ?_⟩
  have hlt : power < q.kind.power := Nat.lt_of_le_of_lt hpow (by rw [hq]; decide)
  have := hfx _ (noElse_cons (by rw [hq]; decide)) _ _ _ hpow (.call hq hlt (hargs r) hx)
  simpa using this

/-! ## Statements -/

/-- What may follow the statement `s`: no semicolon, and after an expression nothing that goes on
with it. -/
def Follows (s : Node) (r : List Token) : Prop :=
  (∀ t ∈ r.head?, t.kind ≠ .semicolon) ∧
    match s with
    | statement .. => Stops Kind.lowestPower r
    | _ => True

/-- The tokens of the statement `s` are read as `s`, before anything that may follow it. -/
def StatementLegible (s : Node) : Prop :=
  ∀ b us, Spells us s.spell → us.length ≤ b →
    ∃ s', s'.same s ∧ ∀ r, Follows s r → Reads.Statement (Reads.Expression b) (us ++ r) r s'

theorem statementLegible_binding {name : String} {q : Pos} (hv : Legible n) :
    StatementLegible (binding pos (identifier q name) n) := by
  intro b us hus hb
  simp only [spell, spells_cons, spells_append, spells_nil] at hus
  obtain ⟨t, _, rfl, ht, -, _, _, rfl, ⟨i, _, rfl, hi, hit, rfl⟩, a, _, rfl, ha, -, vs, _, rfl, hvs,
    c, _, rfl, hc, -, rfl⟩ := hus
  simp only [List.length_cons, List.length_append, List.length_nil] at hb
  obtain ⟨b, rfl⟩ : ∃ d, b = d + 1 := ⟨b - 1, by omega⟩
  obtain ⟨v, hv', hx⟩ := hv b vs hvs (by omega)
  refine ⟨binding t.pos (identifier i.pos i.text) v, by simp [hit, hv'], fun r hr => ?_⟩
  have he : Reads.Expression (b + 1) Kind.lowestPower (vs ++ c :: r) (c :: r) v :=
    reads_of_opens hx (by decide) (stops_cons hc rfl (by decide))
  have := Reads.Statement.binding ht hi ha he
  rw [Reads.dropSemicolons_cons hc, Reads.dropSemicolons_of_head hr.1] at this
  simpa using this

theorem statementLegible_returning (hv : Legible n) : StatementLegible (returning pos n) := by
  intro b us hus hb
  simp only [spell, spells_cons, spells_append, spells_nil] at hus
  obtain ⟨t, _, rfl, ht, -, vs, _, rfl, hvs, c, _, rfl, hc, -, rfl⟩ := hus
  simp only [List.length_cons, List.length_append, List.length_nil] at hb
  obtain ⟨b, rfl⟩ : ∃ d, b = d + 1 := ⟨b - 1, by omega⟩
  obtain ⟨v, hv', hx⟩ := hv b vs hvs (by omega)
  refine ⟨returning t.pos v, by simp [hv'], fun r hr => ?_⟩
  have he : Reads.Expression (b + 1) Kind.lowestPower (vs ++ c :: r) (c :: r) v :=
    reads_of_opens hx (by decide) (stops_cons hc rfl (by decide))
  have := Reads.Statement.returning ht he
  rw [Reads.dropSemicolons_cons hc, Reads.dropSemicolons_of_head hr.1] at this
  simpa using this

/-- The first token of an expression is of one of the kinds that start one, and is a parenthesis
only if the text of the expression starts with one. -/
theorem spells_expression (hn : n.isExpression) (hs : n.every shaped) (hus : Spells us n.spell) :
    ∃ t ts, us = t :: ts ∧ t.kind ∈ firstKinds ∧
      (t.kind = .lparen → n.render.toList.head? = some '(') := by
  obtain ⟨c, k, hc, hk, -, hp, hf⟩ := head_render n hn hs
  cases hspell : n.spell with
  | nil =>
    rw [hspell] at hk
    cases hk
  | cons x ks =>
    rw [hspell] at hk hus
    obtain ⟨t, ts, rfl, ht, -⟩ := spells_cons.1 hus
    have hk : x.1 = k := Option.some.inj hk
    rw [← hk, ← ht] at hp hf
    exact ⟨t, ts, rfl, hf, fun h => by rw [hc, hp h]⟩

theorem statementLegible_statement (hn : n.isExpression) (hs : n.every shaped) (hv : Legible n) :
    StatementLegible (statement pos n) := by
  intro b us hus hb
  have hus : Spells us n.spell := hus
  obtain ⟨t, ts, rfl, ht, -⟩ := spells_expression hn hs hus
  rw [List.length_cons] at hb
  obtain ⟨b, rfl⟩ : ∃ d, b = d + 1 := ⟨b - 1, by omega⟩
  obtain ⟨v, hv', hx⟩ := hv b _ hus (by simpa using hb)
  refine ⟨statement t.pos v, by simp [hv'], fun r hr => ?_⟩
  have he : Reads.Expression (b + 1) Kind.lowestPower (t :: ts ++ r) r v :=
    reads_of_opens hx (by decide) hr.2
  have hk : t.kind ≠ .letKey ∧ t.kind ≠ .returnKey := by
    constructor <;> intro h <;> rw [h] at ht <;> exact absurd ht (by decide)
  have := Reads.Statement.expression hk.1 hk.2 he
  rw [Reads.dropSemicolon_of_head hr.1] at this
  exact this

/-! ## Sequences of statements -/

theorem spells_statement (hn : n.isStatement) (hs : n.every shaped) (hus : Spells us n.spell) :
    ∃ t ts, us = t :: ts ∧ t.kind ∈ Kind.letKey :: .returnKey :: firstKinds ∧
      (t.kind = .lparen → n.render.toList.head? = some '(') := by
  cases n with
  | binding =>
    obtain ⟨t, ts, rfl, ht, -⟩ := spells_cons.1 hus
    exact ⟨t, ts, rfl, by rw [ht]; decide, by rw [ht]; exact nofun⟩
  | returning =>
    obtain ⟨t, ts, rfl, ht, -⟩ := spells_cons.1 hus
    exact ⟨t, ts, rfl, by rw [ht]; decide, by rw [ht]; exact nofun⟩
  | statement q e =>
    simp only [every, shaped, Bool.and_eq_true] at hs
    obtain ⟨t, ts, rfl, ht, hp⟩ := spells_expression hs.1 hs.2 hus
    exact ⟨t, ts, rfl, by simp [ht], hp⟩
  | _ => cases hn

theorem apart_cons {s : Node} {ss : List Node} (h : apart (s :: ss)) :
    apart ss ∧ ∀ q e, s = statement q e → ∀ t ∈ ss.head?, t.render.toList.head? ≠ some '(' := by
  unfold apart at h
  split at h
  · rename_i s ss heq
    cases heq
    rw [Bool.and_eq_true] at h
    refine ⟨h.2, ?_⟩
    rintro _ _ _ _ ⟨⟩
    simpa using h.1
  · rename_i s ss hne heq
    cases heq
    refine ⟨h, ?_⟩
    rintro q e rfl t ht
    cases ss with
    | nil => cases ht
    | cons t ss => exact absurd rfl (hne q e t ss rfl)
  · rename_i heq
    cases heq

theorem follows_cons {s : Node} {t : Token} {ts : List Token} (hi : t.kind.isInfix = false)
    (hk : t.kind ≠ .semicolon) (he : t.kind ≠ .elseKey) (hp : ∀ q e, s = statement q e → t.kind ≠ .lparen) :
    Follows s (t :: ts) := by
  refine ⟨by rintro _ ⟨⟩; exact hk, ?_⟩
  split
  · exact stops_cons rfl hi ⟨hp _ _ rfl, he⟩
  · trivial

/-- Statements that stand apart may follow each other, up to a closing brace or the end of the
text. -/
theorem follows_spellAll {s : Node} {ss : List Node} {stop : List Token} (h : apart (s :: ss))
    (hs : ss.all isStatement) (hss : everyOf shaped ss)
    (hstop : ∀ t ∈ stop.head?, t.kind = .rbrace) (hus : Spells us (spellAll ss)) :
    Follows s (us ++ stop) := by
  cases ss with
  | nil =>
    rw [spells_nil.1 hus]
    cases stop with
    | nil =>
      refine ⟨nofun, ?_⟩
      split
      · exact ⟨nofun, nofun⟩
      · trivial
    | cons c stop =>
      have hc := hstop c rfl
      exact follows_cons (by rw [hc]; rfl) (by rw [hc]; decide) (by rw [hc]; decide)
        fun _ _ _ => by rw [hc]; decide
  | cons t ss =>
    obtain ⟨vs, ws, rfl, hvs, -⟩ := spells_append.1 hus
    simp only [everyOf, List.all_cons, Bool.and_eq_true] at hs hss
    -- only a parenthesis could go on with the statement before, and `apart` excludes it
    obtain ⟨u, us, rfl, hu, hp⟩ := spells_statement hs.1 hss.1 hvs
    have hkinds : ∀ k ∈ Kind.letKey :: .returnKey :: firstKinds,
        k.isInfix = false ∧ k ≠ .semicolon ∧ k ≠ .elseKey := by decide
    obtain ⟨hi, hk, he⟩ := hkinds _ hu
    exact follows_cons hi hk he fun q e hq hl => (apart_cons h).2 q e hq t rfl (hp hl)

/-- **A sequence of statements is read as itself**, by any rule that puts one statement before
others. -/
theorem reads_statements {ss : List Node} (hall : ∀ s ∈ ss, StatementLegible s) (h : apart ss)
    (hs : ss.all isStatement) (hss : everyOf shaped ss) :
    Spells us (spellAll ss) → us.length ≤ b → ∃ ss', sameAll ss' ss ∧
      ∀ (P : List Token → List Node → Prop) (stop : List Token), P stop [] →
        (∀ t ∈ stop.head?, t.kind = .rbrace) →
        (∀ ts m s ss, Reads.Statement (Reads.Expression b) ts m s → P m ss → P ts (s :: ss)) →
        P (us ++ stop) ss' := by
  induction ss generalizing us with
  | nil =>
    intro hus _
    rw [spells_nil.1 hus]
    exact ⟨[], rfl, fun _ _ hnil _ _ => hnil⟩
  | cons s ss ih =>
    intro hus hb
    obtain ⟨vs, ws, rfl, hvs, hws⟩ := spells_append.1 hus
    rw [List.length_append] at hb
    simp only [everyOf, List.all_cons, Bool.and_eq_true] at hs hss
    obtain ⟨s', hs', hr⟩ := hall s (by simp) b vs hvs (by omega)
    obtain ⟨ss', hss', hP⟩ := ih (fun s hs => hall s (by simp [hs])) (apart_cons h).1 hs.2 hss.2
      hws (by omega)
    refine ⟨s' :: ss', by simp [hs', hss'], fun P stop hnil hstop hcons => ?_⟩
    rw [List.append_assoc]
    exact hcons _ _ _ _ (hr _ (follows_spellAll h hs.2 hss.2 hstop hws))
      (hP P stop hnil hstop hcons)

/-- The tokens of the block `n` and a closing brace are read as the statements of `n`. -/
def BlockLegible (n : Node) : Prop :=
  ∀ b us c, Spells us n.spell → us.length ≤ b → c.kind = .rbrace →
    ∃ ss, (∀ pos, (block pos ss).same n) ∧
      ∀ r, Reads.Body (Reads.Expression b) (us ++ c :: r) r ss

theorem blockLegible_block {ss : List Node} (hall : ∀ s ∈ ss, StatementLegible s)
    (hs : ss.all isStatement) (hss : everyOf shaped ss) (h : apart ss) :
    BlockLegible (block pos ss) := by
  intro b us c hus hb hc
  obtain ⟨ss', hss', hP⟩ := reads_statements hall h hs hss hus hb
  refine ⟨ss', fun _ => hss', fun r => ?_⟩
  refine hP (fun ts ss => Reads.Body (Reads.Expression b) ts r ss) (c :: r) (.closed hc) ?_ ?_
  · rintro _ ⟨⟩
    exact hc
  · exact fun _ _ _ _ => .cons

/-! ## Conditions and functions -/

/-- The tokens of the `else` part of a condition are read as that part. -/
def ElseLegible (e : Option Node) : Prop :=
  ∀ b us, Spells us (spellElse e) → us.length ≤ b → ∃ e', sameOption e' e ∧
    ∀ r, NoElse r → Reads.Else (Reads.Expression b) (us ++ r) r e'

theorem elseLegible_none : ElseLegible none := by
  intro b us hus _
  rw [spells_nil.1 hus]
  exact ⟨none, rfl, fun r hr => .none hr⟩

theorem elseLegible_some (h : BlockLegible n) : ElseLegible (some n) := by
  intro b us hus hb
  simp only [spellElse, spells_cons, spells_append, spells_nil] at hus
  obtain ⟨k, _, rfl, hk, -, o, _, rfl, ho, -, vs, _, rfl, hvs, c, _, rfl, hc, -, rfl⟩ := hus
  simp only [List.length_cons, List.length_append, List.length_nil] at hb
  obtain ⟨ss, hss, hr⟩ := h b vs c hvs (by omega) hc
  refine ⟨some (block o.pos ss), hss o.pos, fun r _ => ?_⟩
  have := Reads.Else.some hk ho (hr r)
  simpa using this

theorem legible_conditional {c t : Node} {a : Option Node} (hc : Enclosed c) (ht : BlockLegible t)
    (ha : ElseLegible a) : Legible (conditional pos c t a) := by
  intro b us hus hb
  simp only [spell, spells_cons, spells_append] at hus
  obtain ⟨i, _, rfl, hi, -, cs, _, rfl, hcs, o, _, rfl, ho, -, ts, _, rfl, hts, z, as, rfl, hz, -,
    has⟩ := hus
  simp only [List.length_cons, List.length_append] at hb
  obtain ⟨l, cs, p, e, rfl, hl, hp, he, hce⟩ := hc b cs hcs (by omega)
  obtain ⟨ss, hss, hbody⟩ := ht b ts z hts (by omega) hz
  obtain ⟨a', ha', helse⟩ := ha b as has (by omega)
  refine ⟨conditional i.pos e (block o.pos ss) a', by simp [he, hss, ha'],
    fun r hr => .of_start ?_⟩
  have := Reads.Start.conditional hi hl (hce _) hp ho (hbody (as ++ r)) (helse r hr)
  simpa using this

theorem reads_moreParameters {ns : List Node} (h : ns.all isIdentifier) (hp : p.kind = .rparen) :
    Spells us (spellMore ns) → ∃ ns', sameAll ns' ns ∧
      ∀ rest, Reads.MoreParameters (us ++ p :: rest) rest ns' := by
  induction ns generalizing us with
  | nil =>
    intro hus
    rw [spells_nil.1 hus]
    exact ⟨[], rfl, fun _ => .done hp⟩
  | cons n ns ih =>
    intro hus
    rw [List.all_cons, Bool.and_eq_true] at h
    cases n with
    | identifier q name =>
      simp only [spellMore, spell, spells_cons, spells_append, spells_nil] at hus
      obtain ⟨c, _, rfl, hc, -, _, ws, rfl, ⟨i, _, rfl, hi, hit, rfl⟩, hws⟩ := hus
      obtain ⟨ns', hns', hm⟩ := ih h.2 hws
      exact ⟨_ :: ns', by simp [hit, hns'], fun rest => .more hc hi (hm rest)⟩
    | _ => cases h.1

theorem reads_parameters {ns : List Node} (h : ns.all isIdentifier) (hp : p.kind = .rparen)
    (hus : Spells us (spellList ns)) : ∃ ns', sameAll ns' ns ∧
      ∀ rest, Reads.Parameters (us ++ p :: rest) rest ns' := by
  cases ns with
  | nil =>
    rw [spells_nil.1 hus]
    exact ⟨[], rfl, fun _ => .none hp⟩
  | cons n ns =>
    rw [List.all_cons, Bool.and_eq_true] at h
    cases n with
    | identifier q name =>
      simp only [spellList, spell, spells_cons, spells_append, spells_nil] at hus
      obtain ⟨_, ws, rfl, ⟨i, _, rfl, hi, hit, rfl⟩, hws⟩ := hus
      obtain ⟨ns', hns', hm⟩ := reads_moreParameters h.2 hp hws
      exact ⟨_ :: ns', by simp [hit, hns'], fun rest => .some hi (hm rest)⟩
    | _ => cases h.1

theorem legible_function {ns : List Node} (hns : ns.all isIdentifier) (hn : BlockLegible n) :
    Legible (function pos ns n) := by
  intro b us hus hb
  simp only [spell, spells_cons, spells_append, spells_nil] at hus
  obtain ⟨f, _, rfl, hf, -, l, _, rfl, hl, -, ps, _, rfl, hps, p, _, rfl, hp, -, o, _, rfl, ho, -,
    ts, _, rfl, hts, z, _, rfl, hz, -, rfl⟩ := hus
  simp only [List.length_cons, List.length_append, List.length_nil] at hb
  obtain ⟨ns', hns', hparams⟩ := reads_parameters hns hp hps
  obtain ⟨ss, hss, hbody⟩ := hn b ts z hts (by omega) hz
  refine ⟨function f.pos ns' (block o.pos ss), by simp [hns', hss],
    fun r _ => .of_start ?_⟩
  have := Reads.Start.function hf hl (hparams _) ho (hbody r)
  simpa using this

end

/-! ## Trees of the grammar -/

theorem every_shaped {n : Node} (h : n.every renderable) : n.every shaped := by
  unfold renderable at h
  rw [every_and, every_and, Bool.and_eq_true, Bool.and_eq_true] at h
  exact h.1.1

theorem everyOf_shaped {ns : List Node} (h : everyOf renderable ns) : everyOf shaped ns := by
  unfold renderable at h
  rw [everyOf_and, everyOf_and, Bool.and_eq_true, Bool.and_eq_true] at h
  exact h.1.1

mutual

/-- **Every expression that can be written is read back.** -/
theorem legible : (n : Node) → n.isExpression → n.every renderable → Legible n
  | identifier .., _, _ => legible_identifier
  | integer .., _, h => by
    simp only [every, renderable, shaped, Bool.and_eq_true, decide_eq_true_eq] at h
    exact legible_integer h.1.1.1 h.1.1.2
  | boolean .., _, _ => legible_boolean
  | string .., _, _ => legible_string
  | unary _ _ e, _, h => by
    simp only [every, renderable, shaped, Bool.and_eq_true, List.contains_iff_mem] at h
    exact (enclosed_unary h.1.1.1.1 (legible e h.1.1.1.2 h.2)).legible
  | binary _ l _ r, _, h => by
    simp only [every, renderable, shaped, Bool.and_eq_true, List.contains_iff_mem] at h
    obtain ⟨⟨⟨⟨⟨⟨hop, hl⟩, hr⟩, -⟩, -⟩, hle⟩, hre⟩ := h
    exact (enclosed_binary hop (legible l hl hle) (legible r hr hre)).legible
  | conditional _ c t a, _, h => by
    simp only [every, renderable, shaped, bracketed, Bool.and_eq_true] at h
    -- the parentheses around the condition are the ones that it brings itself
    obtain ⟨⟨⟨⟨⟨⟨⟨-, ht⟩, ha⟩, hc⟩, -⟩, hce⟩, hte⟩, hae⟩ := h
    exact legible_conditional (enclosed c hc hce) (blockLegible t ht hte) (elseLegible a ha hae)
  | function _ _ body, _, h => by
    simp only [every, renderable, shaped, Bool.and_eq_true] at h
    exact legible_function h.1.1.1.1.1 (blockLegible body h.1.1.1.1.2 h.2)
  | call _ f args, _, h => by
    simp only [every, renderable, shaped, Bool.and_eq_true] at h
    exact legible_call (legible f h.1.1.1.1.1 h.1.2) (legible_args args h.1.1.1.1.2 h.2)

theorem enclosed : (n : Node) → n.isOperation → n.every renderable → Enclosed n
  | unary _ _ e, _, h => by
    simp only [every, renderable, shaped, Bool.and_eq_true, List.contains_iff_mem] at h
    exact enclosed_unary h.1.1.1.1 (legible e h.1.1.1.2 h.2)
  | binary _ l _ r, _, h => by
    simp only [every, renderable, shaped, Bool.and_eq_true, List.contains_iff_mem] at h
    obtain ⟨⟨⟨⟨⟨⟨hop, hl⟩, hr⟩, -⟩, -⟩, hle⟩, hre⟩ := h
    exact enclosed_binary hop (legible l hl hle) (legible r hr hre)

theorem legible_args : (args : List Node) → args.all isExpression → everyOf renderable args →
    ∀ a ∈ args, Legible a
  | [], _, _ => nofun
  | a :: args, h, hr => by
    simp only [everyOf, List.all_cons, Bool.and_eq_true] at h hr
    rw [List.forall_mem_cons]
    exact ⟨legible a h.1 hr.1, legible_args args h.2 hr.2⟩

theorem statementLegible : (s : Node) → s.isStatement → s.every renderable → StatementLegible s
  | binding _ (identifier ..) value, _, h => by
    simp only [every, renderable, shaped, Bool.and_eq_true] at h
    exact statementLegible_binding (legible value h.1.1.1.1.2 h.2)
  | returning _ value, _, h => by
    simp only [every, renderable, shaped, Bool.and_eq_true] at h
    exact statementLegible_returning (legible value h.1.1.1 h.2)
  | statement _ e, _, h => by
    simp only [every, renderable, shaped, Bool.and_eq_true] at h
    exact statementLegible_statement h.1.1.1 (every_shaped h.2) (legible e h.1.1.1 h.2)

theorem statementsLegible : (ss : List Node) → ss.all isStatement → everyOf renderable ss →
    ∀ s ∈ ss, StatementLegible s
  | [], _, _ => nofun
  | s :: ss, h, hr => by
    simp only [everyOf, List.all_cons, Bool.and_eq_true] at h hr
    rw [List.forall_mem_cons]
    exact ⟨statementLegible s h.1 hr.1, statementsLegible ss h.2 hr.2⟩

theorem blockLegible : (n : Node) → n.isBlock → n.every renderable → BlockLegible n
  | block _ ss, _, h => by
    simp only [every, renderable, shaped, Bool.and_eq_true] at h
    exact blockLegible_block (statementsLegible ss h.1.1.1 h.2) h.1.1.1 (everyOf_shaped h.2) h.1.2

theorem elseLegible : (e : Option Node) → e.all isBlock → everyIn renderable e → ElseLegible e
  | none, _, _ => elseLegible_none
  | some n, hn, h => elseLegible_some (blockLegible n hn h)

end

/-! ## Programs -/

theorem reads_program {ss : List Node} {us : List Token} {b : Nat} (hs : ss.all isStatement)
    (hr : everyOf renderable ss) (ha : apart ss) (hus : Spells us (spellAll ss))
    (hb : us.length ≤ b) :
    ∃ ss', sameAll ss' ss ∧ Reads.Program (Reads.Expression b) us ss' := by
  obtain ⟨ss', hss', hP⟩ :=
    reads_statements (statementsLegible ss hs hr) ha hs (everyOf_shaped hr) hus hb
  have := hP (Reads.Program (Reads.Expression b)) [] .nil nofun fun _ _ _ _ => .cons
  rw [List.append_nil] at this
  exact ⟨ss', hss', this⟩

/-- **Writing a program and parsing it gives the program again**, without a diagnostic. It has to
be one of the grammar, with bracketed conditions and statements that stand apart, and nesting may
go as deep as the number of tokens, the end of the text not counted. -/
theorem parse_render (p : Node) (hp : p.isProgram) (hs : p.every shaped) (hc : p.every bracketed)
    (ha : p.every separated) (m : Int) (hm : ((Token.scan p.render).length : Int) ≤ m + 1) :
    (Parsed.ofSource p.render { maxNesting := m }).errors = [] ∧
      (Parsed.ofSource p.render { maxNesting := m }).program.same p := by
  have hr : p.every renderable := by
    unfold renderable
    rw [every_and, every_and, hs, hc, ha]
    rfl
  cases p with
  | program pos ss =>
    simp only [every, renderable, shaped, Bool.and_eq_true] at hr
    -- the tokens of the text are those of the tree, and then the end of the text
    obtain ⟨us, z, hscan, hus, hz, hne⟩ := Token.scan_eq (program pos ss).render
    have hspells : Spells us (spellAll ss) := by
      have := map_bare_scan_render hs
      rw [Token.map_bare_scan, List.append_left_inj] at this
      exact hus.trans this
    rw [hscan, List.length_append] at hm
    obtain ⟨ss', hsame, hread⟩ := reads_program (b := m.toNat) hr.1.1.1 hr.2 hr.1.2 hspells
      (by simp at hm; omega)
    have hv := visible_append_eof hne hz
    rw [← hv] at hread
    have := (errors_ofTokens_eq_nil_iff (ended_append hne)).2 ⟨ss', rfl, hread⟩
    unfold Parsed.ofSource
    rw [hscan, this.1, this.2]
    exact ⟨rfl, hsame⟩
  | _ => cases hp

theorem length_scan_render {n : Node} (h : n.every shaped) :
    (Token.scan n.render).length = n.spell.length + 1 := by
  have := congrArg List.length (map_bare_scan_render h)
  simpa using this

/-- A program with a node of every sort. -/
def specimen : Node :=
  let x := identifier .start "x"
  let f := identifier .start "f"
  program .start [
    binding .start f (function .start [x, identifier .start "_y2"] (block .start [
      statement .start (conditional .start (unary .start "!" x)
        (block .start [statement .start (string .start "a\"\\\n"), statement .start x])
        (some (block .start [returning .start (binary .start x "<=" (boolean .start true))])))])),
    statement .start (call .start (call .start f [integer .start 0, unary .start "-" x]) []),
    returning .start (integer .start 9223372036854775807)]

theorem parse_render_specimen :
    (Parsed.ofSource specimen.render { maxNesting := 500 }).errors = [] ∧
      (Parsed.ofSource specimen.render { maxNesting := 500 }).program.same specimen := by
  have hs : specimen.every shaped := by decide +kernel
  have hm : ((Token.scan specimen.render).length : Int) ≤ 500 + 1 := by
    rw [length_scan_render hs]
    decide +kernel
  exact parse_render specimen rfl hs (by decide +kernel) (by decide +kernel) 500 hm

end Scriptlet.Syntax.Node
