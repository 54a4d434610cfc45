import Scriptlet.Proofs.Grammar.Basic
import Scriptlet.Proofs.Parser.Reads

/-!
# What is read is grammatical

Whatever the relation of tokens and trees reads is derived by the grammar, and every number that
it reads is the text of a word. The relation knows binding powers and the grammar does not: the
operands that one expression takes are a part of the operands of the expression around it.

* `Fits`: a phrase is derived, and its numbers are words.
* `Grammatical`: what the readings of an expression are, seen from the grammar.
* `grammatical_expression`: it holds of the relation, at every budget.
-/

namespace Scriptlet.Grammar

open Scriptlet.Parser
open Syntax (Node)
open Token (Kind)

/-- The kinds of tokens. -/
abbrev kinds (ts : List Token) : List Kind := ts.map Token.kind

/-- A token that is a number is the text of a number that is not too large. -/
def Numeric (t : Token) : Prop :=
  t.kind = .int → ∃ v, Numeral.parse? t.text = some v ∧ v ≤ Word.greatest

/-- The tokens before `r` are no numbers or the texts of ones that are not too large. -/
def Passes (ts r : List Token) : Prop := (∀ t ∈ r, Numeric t) → ∀ t ∈ ts, Numeric t

/-- The tokens before `r` are the phrase `x`, and their numbers are not too large. -/
def Fits (x : Phrase) (ts r : List Token) : Prop := Derives x (kinds ts) (kinds r) ∧ Passes ts r

section

variable {ts m r : List Token} {t : Token} {k : Kind}

theorem kinds_cons (h : t.kind = k) : kinds (t :: ts) = k :: kinds ts := by
  rw [← h]
  rfl

theorem Passes.refl : Passes r r := id

theorem Passes.trans (h : Passes ts m) (h' : Passes m r) : Passes ts r := fun hr => h (h' hr)

theorem Passes.cons (ht : Numeric t) (h : Passes ts r) : Passes (t :: ts) r :=
  fun hr => List.forall_mem_cons.2 ⟨ht, h hr⟩

theorem numeric_of_kind (ht : t.kind = k) (hk : k ≠ .int) : Numeric t :=
  fun h => absurd (ht ▸ h) hk

theorem Passes.skip (ht : t.kind = k) (hk : k ≠ .int) (h : Passes ts r) : Passes (t :: ts) r :=
  h.cons (numeric_of_kind ht hk)

variable {x y z : Phrase}

/-- A phrase of two parts. -/
theorem Fits.seq (h : Fits x ts m) (h' : Fits y m r)
    (c : Derives x (kinds ts) (kinds m) → Derives y (kinds m) (kinds r) →
      Derives z (kinds ts) (kinds r)) : Fits z ts r :=
  ⟨c h.1 h'.1, h.2.trans h'.2⟩

/-- A phrase that begins with a token of its own. -/
theorem Fits.skip (h : Fits x ts r) (ht : t.kind = k) (hk : k ≠ .int)
    (c : Derives x (kinds ts) (kinds r) → Derives z (k :: kinds ts) (kinds r)) :
    Fits z (t :: ts) r := by
  subst ht
  exact ⟨c h.1, h.2.skip rfl hk⟩

/-- A phrase of one token. -/
theorem Fits.token (ht : t.kind = k) (hk : k ≠ .int)
    (c : Derives z (k :: kinds r) (kinds r)) : Fits z (t :: r) r := by
  subst ht
  exact ⟨c, Passes.refl.skip rfl hk⟩

theorem dropSemicolons_spec (m : List Token) :
    ∃ n, kinds m = List.replicate n .semicolon ++ kinds (Reads.dropSemicolons m) ∧
      Passes m (Reads.dropSemicolons m) := by
  induction m with
  | nil => exact ⟨0, rfl, .refl⟩
  | cons t m ih =>
    by_cases ht : t.kind = .semicolon
    · obtain ⟨n, hn, hp⟩ := ih
      rw [Reads.dropSemicolons_cons ht]
      refine ⟨n + 1, ?_, hp.skip ht nofun⟩
      rw [kinds_cons ht, hn, List.replicate_succ, List.cons_append]
    · rw [Reads.dropSemicolons_of_head (by simpa using ht)]
      exact ⟨0, rfl, .refl⟩

theorem dropSemicolon_spec (m : List Token) :
    ∃ n, n ≤ 1 ∧ kinds m = List.replicate n .semicolon ++ kinds (Reads.dropSemicolon m) ∧
      Passes m (Reads.dropSemicolon m) := by
  cases m with
  | nil => exact ⟨0, by decide, rfl, .refl⟩
  | cons t m =>
    by_cases ht : t.kind = .semicolon
    · rw [Reads.dropSemicolon_cons ht]
      exact ⟨1, by decide, by simp [ht], Passes.refl.skip ht nofun⟩
    · rw [Reads.dropSemicolon_of_head (by simpa using ht)]
      exact ⟨0, by decide, rfl, .refl⟩

theorem power_of_isInfix (h : k.isInfix = true) :
    Kind.lowestPower < k.power ∧ k.power < Kind.prefixPower := by
  cases k <;> first | decide | cases h

theorem munched_of_ends (h : Reads.Ends Kind.lowestPower r) : Munched (kinds r) := by
  cases r with
  | nil => exact nofun
  | cons t r =>
    have h := h t rfl
    rintro _ ⟨⟩
    refine ⟨?_, fun hl => h ⟨.inr hl, by rw [hl]; decide⟩⟩
    rw [← Bool.not_eq_true]
    exact fun hi => h ⟨.inl hi, (power_of_isInfix hi).1⟩

/-- An expression that an operator ends takes all calls before it. -/
theorem no_call_of_ends {power : Nat} (hp : power ≤ Kind.prefixPower) (h : Reads.Ends power r) :
    ∀ k ∈ (kinds r).head?, k ≠ .lparen := by
  cases r with
  | nil => exact nofun
  | cons t r =>
    rintro _ ⟨⟩ hl
    refine h t rfl ⟨.inr hl, ?_⟩
    rw [hl]
    exact Nat.lt_of_le_of_lt hp (by decide)

end

/-- What the readings of an expression are, seen from the grammar: a unary and operands, and a
unary alone under a prefix operator. -/
structure Grammatical (E : Nat → Reading Node) : Prop where
  ends : ∀ {power : Nat} {ts r : List Token} {e : Node}, E power ts r e → Reads.Ends power r
  passes : ∀ {power : Nat} {ts r : List Token} {e : Node}, E power ts r e → Passes ts r
  operation : ∀ {power : Nat} {ts r : List Token} {e : Node}, E power ts r e →
    ∃ ms, Derives .unary (kinds ts) ms ∧ Derives .operands ms (kinds r)
  unary : ∀ {ts r : List Token} {e : Node}, E Kind.prefixPower ts r e →
    Derives .unary (kinds ts) (kinds r)

section

variable {E : Nat → Reading Node} (hE : Grammatical E) {ts r : List Token}

include hE

theorem Grammatical.expression {power : Nat} {e : Node} (h : E power ts r e) :
    Fits .expression ts r := by
  obtain ⟨ms, hu, ho⟩ := hE.operation h
  exact ⟨.operation hu ho, hE.passes h⟩

theorem fits_statement {s : Node} (h : Reads.Statement E ts r s) : Fits .statement ts r := by
  cases h with
  | @binding t n a ts m v ht hn ha hv =>
    obtain ⟨i, hi, hp⟩ := dropSemicolons_spec m
    obtain ⟨hd, hpv⟩ := hE.expression hv
    have hm := munched_of_ends (hE.ends hv)
    rw [hi] at hd hm
    refine ⟨?_, (((hpv.trans hp).skip ha nofun).skip hn nofun).skip ht nofun⟩
    rw [kinds_cons ht, kinds_cons hn, kinds_cons ha]
    exact .binding i hd hm
  | @returning t ts m v ht hv =>
    obtain ⟨i, hi, hp⟩ := dropSemicolons_spec m
    obtain ⟨hd, hpv⟩ := hE.expression hv
    have hm := munched_of_ends (hE.ends hv)
    rw [hi] at hd hm
    refine ⟨?_, (hpv.trans hp).skip ht nofun⟩
    rw [kinds_cons ht]
    exact .returning i hd hm
  | @expression t ts m v _ _ hv =>
    obtain ⟨i, hle, hi, hp⟩ := dropSemicolon_spec m
    obtain ⟨hd, hpv⟩ := hE.expression hv
    have hm := munched_of_ends (hE.ends hv)
    rw [hi] at hd hm
    exact ⟨.expression i hle hd hm, hpv.trans hp⟩

theorem fits_body {ss : List Node} (h : Reads.Body E ts r ss) : Fits .body ts r := by
  induction h with
  | closed hc => exact .token hc nofun .closed
  | unclosed => exact ⟨.unclosed, .refl⟩
  | cons hs _ ih => exact (fits_statement hE hs).seq ih .inside

theorem fits_program {ss : List Node} (h : Reads.Program E ts ss) : Fits .program ts [] := by
  induction h with
  | nil => exact ⟨.noStatement, .refl⟩
  | cons hs _ ih => exact (fits_statement hE hs).seq ih .statement

/-- A block is its opening brace and its body. -/
theorem fits_block {b : Token} {ss : List Node} (hb : b.kind = .lbrace)
    (h : Reads.Body E ts r ss) : Fits .block (b :: ts) r :=
  (fits_body hE h).skip hb nofun .block

theorem fits_else {o : Option Node} (h : Reads.Else E ts r o) : Fits .alternative ts r := by
  cases h with
  | none => exact ⟨.noAlternative, .refl⟩
  | some he hb h => exact (fits_block hE hb h).skip he nofun .alternative

theorem fits_moreArguments {es : List Node} (h : Reads.MoreArguments E ts r es) :
    Fits .moreArguments ts r := by
  induction h with
  | done hp => exact .token hp nofun .lastArgument
  | more hc he _ ih =>
    refine ⟨?_, ((hE.expression he).2.trans ih.2).skip hc nofun⟩
    rw [kinds_cons hc]
    exact .anotherArgument (hE.expression he).1 ih.1

theorem fits_arguments {es : List Node} (h : Reads.Arguments E ts r es) :
    Fits .arguments ts r := by
  cases h with
  | none hp => exact .token hp nofun .noArgument
  | some he hm => exact (hE.expression he).seq (fits_moreArguments hE hm) .argument

omit hE

theorem fits_moreParameters {ns : List Node} (h : Reads.MoreParameters ts r ns) :
    Fits .moreParameters ts r := by
  induction h with
  | done hp => exact .token hp nofun .lastParameter
  | more hc hn _ ih =>
    refine ⟨?_, (ih.2.skip hn nofun).skip hc nofun⟩
    rw [kinds_cons hc, kinds_cons hn]
    exact .anotherParameter ih.1

theorem fits_parameters {ns : List Node} (h : Reads.Parameters ts r ns) :
    Fits .parameters ts r := by
  cases h with
  | none hp => exact .token hp nofun .noParameter
  | some hn hm => exact (fits_moreParameters hm).skip hn nofun .parameter

include hE

/-- What a token starts is a primary, or a unary that takes all calls after it. -/
theorem fits_start {e : Node} (h : Reads.Start E ts r e) :
    Fits .primary ts r ∨ (Fits .unary ts r ∧ Reads.Ends Kind.prefixPower r) := by
  cases h with
  | identifier hk => exact .inl (.token hk nofun (.atom (by decide)))
  | integer hk hv hle =>
    refine .inl ⟨?_, Passes.refl.cons fun _ => ⟨_, hv, hle⟩⟩
    rw [kinds_cons hk]
    exact .atom (by decide)
  | string hk => exact .inl (.token hk nofun (.atom (by decide)))
  | boolean hk =>
    rcases hk with hk | hk
    · exact .inl (.token hk nofun (.atom (by decide)))
    · exact .inl (.token hk nofun (.atom (by decide)))
  | @unary t us r e hk he =>
    refine .inr ⟨⟨.prefixed hk (hE.unary he), ?_⟩, hE.ends he⟩
    rcases hk with hk | hk
    · exact (hE.passes he).skip hk nofun
    · exact (hE.passes he).skip hk nofun
  | group hk he hp =>
    obtain ⟨hd, hps⟩ := hE.expression he
    rw [kinds_cons hp] at hd
    refine .inl ⟨?_, (hps.trans (Passes.refl.skip hp nofun)).skip hk nofun⟩
    rw [kinds_cons hk]
    exact .group hd
  | conditional hk hl hc hp hb hs ha =>
    obtain ⟨hd, hps⟩ := hE.expression hc
    obtain ⟨hdb, hpb⟩ := fits_block hE hb hs
    obtain ⟨hda, hpa⟩ := fits_else hE ha
    rw [kinds_cons hp] at hd
    refine .inl ⟨?_, ((hps.trans ((hpb.trans hpa).skip hp nofun)).skip hl nofun).skip hk nofun⟩
    rw [kinds_cons hk, kinds_cons hl]
    exact .conditional hd hdb hda
  | function hk hl hn hb hs =>
    obtain ⟨hd, hps⟩ := fits_parameters hn
    obtain ⟨hdb, hpb⟩ := fits_block hE hb hs
    refine .inl ⟨?_, ((hps.trans hpb).skip hl nofun).skip hk nofun⟩
    rw [kinds_cons hk, kinds_cons hl]
    exact .function hd hdb

omit hE in
theorem ends_of_extension {power : Nat} {left e : Node} (h : Reads.Extension E power left ts r e) :
    Reads.Ends power r := by
  induction h with
  | done h => exact h
  | binary _ _ _ _ ih => exact ih
  | call _ _ _ _ ih => exact ih

theorem passes_extension {power : Nat} {left e : Node} (h : Reads.Extension E power left ts r e) :
    Passes ts r := by
  induction h with
  | done => exact .refl
  | binary hi _ he _ ih =>
    exact ((hE.passes he).trans ih).cons fun h => by rw [h] at hi; cases hi
  | call hl _ ha _ ih => exact ((fits_arguments hE ha).2.trans ih).skip hl nofun

/-- What extends an expression is calls and then operands. -/
theorem derives_extension {power : Nat} {left e : Node}
    (h : Reads.Extension E power left ts r e) :
    ∃ ms, Derives .calls (kinds ts) ms ∧ Derives .operands ms (kinds r) := by
  induction h with
  | done => exact ⟨_, .noCall, .noOperand⟩
  | @binary left right e t us m r hi _ he _ ih =>
    -- the right operand took all calls, so that only operands can follow
    obtain ⟨ms, hc, ho⟩ := ih
    have hp := Nat.le_of_lt (power_of_isInfix hi).2
    have hms := hc.eq_of_calls (no_call_of_ends hp (hE.ends he))
    subst hms
    obtain ⟨ns, hu, ho'⟩ := hE.operation he
    exact ⟨_, .noCall, .operand hi hu (ho'.operands_append ho)⟩
  | call hl _ ha _ ih =>
    obtain ⟨ms, hc, ho⟩ := ih
    rw [kinds_cons hl]
    exact ⟨ms, .call (fits_arguments hE ha).1 hc, ho⟩

/-- Under a prefix operator only calls extend an expression. -/
theorem calls_extension {left e : Node}
    (h : Reads.Extension E Kind.prefixPower left ts r e) : Derives .calls (kinds ts) (kinds r) := by
  induction h with
  | done => exact .noCall
  | binary hi hp _ _ _ => exact absurd hp (Nat.lt_asymm (power_of_isInfix hi).2)
  | call hl _ ha _ ih =>
    rw [kinds_cons hl]
    exact .call (fits_arguments hE ha).1 ih

end

/-- **What is read as an expression is grammatical**, whatever may be open at once. -/
theorem grammatical_expression (budget : Nat) : Grammatical (Reads.Expression budget) := by
  induction budget with
  | zero => exact ⟨nofun, nofun, nofun, nofun⟩
  | succ budget ih =>
    constructor
    · rintro power ts r e ⟨m, left, -, hx⟩
      exact ends_of_extension hx
    · rintro power ts r e ⟨m, left, hs, hx⟩
      rcases fits_start ih hs with h | ⟨h, -⟩
      · exact h.2.trans (passes_extension ih hx)
      · exact h.2.trans (passes_extension ih hx)
    · rintro power ts r e ⟨m, left, hs, hx⟩
      obtain ⟨ms, hc, ho⟩ := derives_extension ih hx
      rcases fits_start ih hs with h | ⟨h, he⟩
      · exact ⟨ms, .called h.1 hc, ho⟩
      · -- after a prefix operator the calls belong to the operand, so that none is left here
        have := hc.eq_of_calls (no_call_of_ends (Nat.le_refl _) he)
        subst this
        exact ⟨_, h.1, ho⟩
    · rintro ts r e ⟨m, left, hs, hx⟩
      have hc := calls_extension ih hx
      rcases fits_start ih hs with h | ⟨h, he⟩
      · exact .called h.1 hc
      · rw [hc.eq_of_calls (no_call_of_ends (Nat.le_refl _) he)]
        exact h.1

end Scriptlet.Grammar
