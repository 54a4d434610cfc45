import Scriptlet.Proofs.Parser.Exact
import Scriptlet.Proofs.Token.Written

/-!
# What a tree keeps of its tokens

A parse without diagnostics loses no token, takes none twice and moves none. A tree, read from left
to right, shows each token that it was made of at its place, except for the delimiters that only
hold others together.

* `Token.imprint`: what a token leaves in a tree.
* `Node.imprints`: what a tree shows from left to right.
* `Parser.Imprinted`: what tokens leave, up to the tokens that are left.
* `imprints_ofSource`: the main statement.
-/

namespace Scriptlet

open Syntax (Node operatorKind)
open Token (Kind)

namespace Token

/-- What a tree keeps of the text of a token: nothing, all of it, or the number that it denotes. -/
inductive Content
  | nothing
  | text (s : String)
  | number (n : Int)
deriving DecidableEq, Repr

/-- What a tree keeps of a token. -/
structure Imprint where
  kind : Kind
  content : Content
  pos : Pos
deriving DecidableEq, Repr

/-- Whether a tree keeps nothing at all of the tokens of a kind. -/
def Kind.isSilent : Kind → Bool
  | lparen | rparen | rbrace | comma | semicolon | assign | elseKey | eof => true
  | _ => false

/-- Whether a kind is that of a prefix or an infix operator. -/
def Kind.isOperator (kind : Kind) : Bool := kind.isInfix || kind == .bang

/-- The number that decimal digits denote. -/
def decimal (text : String) : Int := Nat.ofDigitChars 10 text.toList 0

/-- What is kept of the text of a token: all of a name, a string and an operator, and the number
that digits denote. -/
def content (t : Token) : Content :=
  if t.kind = .ident ∨ t.kind = .string ∨ t.kind.isOperator then .text t.text
  else if t.kind = .int then .number (decimal t.text)
  else .nothing

/-- What a token leaves in a tree. -/
def imprint (t : Token) : Imprint := ⟨t.kind, t.content, t.pos⟩

/-- What tokens leave in a tree. -/
def imprints (ts : List Token) : List Imprint := (ts.filter (!·.kind.isSilent)).map imprint

end Token

namespace Syntax.Node

open Token (Imprint)

mutual

/-- What a tree shows of its tokens, from left to right. -/
def imprints : Node → List Imprint
  | program _ ss => imprintsAll ss
  | block pos ss => ⟨.lbrace, .nothing, pos⟩ :: imprintsAll ss
  | binding pos name value => ⟨.letKey, .nothing, pos⟩ :: (imprints name ++ imprints value)
  | returning pos value => ⟨.returnKey, .nothing, pos⟩ :: imprints value
  | statement _ e => imprints e
  | identifier pos name => [⟨.ident, .text name, pos⟩]
  | integer pos n => [⟨.int, .number n, pos⟩]
  | boolean pos b => [⟨if b then .trueKey else .falseKey, .nothing, pos⟩]
  | string pos s => [⟨.string, .text s, pos⟩]
  | unary pos op e => ⟨operatorKind op, .text op, pos⟩ :: imprints e
  | binary pos l op r => imprints l ++ ⟨operatorKind op, .text op, pos⟩ :: imprints r
  | conditional pos c t e =>
    ⟨.ifKey, .nothing, pos⟩ :: (imprints c ++ (imprints t ++ imprintsIn e))
  | function pos params body =>
    ⟨.function, .nothing, pos⟩ :: (imprintsAll params ++ imprints body)
  | call _ f args => imprints f ++ imprintsAll args
  | bare _ => []

/-- What the trees of a list show of their tokens. -/
def imprintsAll : List Node → List Imprint
  | [] => []
  | n :: ns => imprints n ++ imprintsAll ns

/-- What a tree that may be absent shows of its tokens. -/
def imprintsIn : Option Node → List Imprint
  | none => []
  | some n => imprints n

end

end Syntax.Node

namespace Parser

open Token (Imprint)
open Syntax.Node

/-! ## What tokens leave -/

/-- A token as a tree can show it: the text of an operator gives its kind, and what a number is read
as is what its digits denote. -/
structure Faithful (t : Token) : Prop where
  operator : t.kind.isOperator → operatorKind t.text = t.kind
  number : ∀ v, t.kind = .int → Numeral.parse? t.text = some v → v = Token.decimal t.text

/-- The tokens of `ts` before `r` leave `is`, if all of them are faithful. -/
def Imprinted (is : List Imprint) (ts r : List Token) : Prop :=
  (∀ t ∈ ts, Faithful t) → (∀ t ∈ r, Faithful t) ∧ Token.imprints ts = is ++ Token.imprints r

variable {is js : List Imprint} {ts m r : List Token} {t : Token} {k : Kind}

theorem Imprinted.refl : Imprinted [] r r := fun h => ⟨h, rfl⟩

theorem Imprinted.trans (h : Imprinted is ts m) (h' : Imprinted js m r) :
    Imprinted (is ++ js) ts r := by
  intro hts
  obtain ⟨hm, heq⟩ := h hts
  obtain ⟨hr, heq'⟩ := h' hm
  exact ⟨hr, by rw [heq, heq', List.append_assoc]⟩

/-- A token of which nothing is kept. -/
theorem Imprinted.silent (h : Imprinted is ts r) (ht : t.kind = k) (hk : k.isSilent) :
    Imprinted is (t :: ts) r := by
  intro hts
  obtain ⟨hr, heq⟩ := h fun u hu => hts u (List.mem_cons_of_mem t hu)
  refine ⟨hr, ?_⟩
  rw [← heq]
  simp [Token.imprints, ht, hk]

/-- A token of which something is kept. -/
theorem Imprinted.cons {i : Imprint} (h : Imprinted is ts r) (ht : t.kind.isSilent = false)
    (hi : Faithful t → t.imprint = i) : Imprinted (i :: is) (t :: ts) r := by
  intro hts
  obtain ⟨hr, heq⟩ := h fun u hu => hts u (List.mem_cons_of_mem t hu)
  refine ⟨hr, ?_⟩
  rw [List.cons_append, ← heq, ← hi (hts t List.mem_cons_self)]
  simp [Token.imprints, ht]

/-- A keyword or an opening brace. -/
theorem Imprinted.keyword (h : Imprinted is ts r) (ht : t.kind = k)
    (hk : k ∈ [Kind.letKey, .returnKey, .ifKey, .function, .lbrace, .trueKey, .falseKey]) :
    Imprinted (⟨k, .nothing, t.pos⟩ :: is) (t :: ts) r := by
  have hkind : ∀ k ∈ [Kind.letKey, .returnKey, .ifKey, .function, .lbrace, .trueKey, .falseKey],
      k.isSilent = false ∧ ¬ (k = .ident ∨ k = .string ∨ k.isOperator) ∧ k ≠ .int := by
    decide
  obtain ⟨hsilent, htext, hint⟩ := hkind k hk
  refine h.cons (ht ▸ hsilent) fun _ => ?_
  simp only [Token.imprint, Token.content, ht, if_neg htext, if_neg hint]

/-- A name or a string. -/
theorem Imprinted.text (h : Imprinted is ts r) (ht : t.kind = k) (hk : k ∈ [Kind.ident, .string]) :
    Imprinted (⟨k, .text t.text, t.pos⟩ :: is) (t :: ts) r := by
  have hkind : ∀ k ∈ [Kind.ident, .string],
      k.isSilent = false ∧ (k = .ident ∨ k = .string ∨ k.isOperator) := by decide
  obtain ⟨hsilent, htext⟩ := hkind k hk
  refine h.cons (ht ▸ hsilent) fun _ => ?_
  simp only [Token.imprint, Token.content, ht, if_pos htext]

theorem isSilent_of_isOperator (h : k.isOperator) : k.isSilent = false := by
  cases k with
  | lparen | rparen | rbrace | comma | semicolon | assign | elseKey | eof => cases h
  | _ => rfl

theorem Imprinted.operator (h : Imprinted is ts r) (ht : t.kind.isOperator) :
    Imprinted (⟨operatorKind t.text, .text t.text, t.pos⟩ :: is) (t :: ts) r := by
  refine h.cons (isSilent_of_isOperator ht) fun hf => ?_
  simp [Token.imprint, Token.content, ht, hf.operator ht]

theorem Imprinted.number (h : Imprinted is ts r) (ht : t.kind = .int) {v : Int}
    (hv : Numeral.parse? t.text = some v) :
    Imprinted (⟨.int, .number v, t.pos⟩ :: is) (t :: ts) r := by
  refine h.cons (by rw [ht]; rfl) fun hf => ?_
  rw [hf.number v ht hv]
  simp [Token.imprint, Token.content, ht, Kind.isOperator, Kind.isInfix]

theorem imprinted_dropSemicolons (m : List Token) : Imprinted [] m (Reads.dropSemicolons m) := by
  induction m with
  | nil => exact .refl
  | cons t m ih =>
    by_cases ht : t.kind = .semicolon
    · rw [Reads.dropSemicolons_cons ht]
      exact ih.silent ht rfl
    · rw [Reads.dropSemicolons_of_head (by simpa using ht)]
      exact .refl

theorem imprinted_dropSemicolon (m : List Token) : Imprinted [] m (Reads.dropSemicolon m) := by
  cases m with
  | nil => exact .refl
  | cons t m =>
    by_cases ht : t.kind = .semicolon
    · rw [Reads.dropSemicolon_cons ht]
      exact Imprinted.refl.silent ht rfl
    · rw [Reads.dropSemicolon_of_head (by simpa using ht)]
      exact .refl

/-! ## What is read -/

section

variable {E : Nat → Reading Node}
  (hE : ∀ {power : Nat} {ts r : List Token} {e : Node}, E power ts r e → Imprinted e.imprints ts r)

include hE

theorem imprinted_statement {s : Node} (h : Reads.Statement E ts r s) :
    Imprinted s.imprints ts r := by
  cases h with
  | @binding t n a ts m v ht hn ha hv =>
    have hvalue := (hE hv).trans (imprinted_dropSemicolons m)
    rw [List.append_nil] at hvalue
    exact ((hvalue.silent ha rfl).text hn (by decide)).keyword ht (by decide)
  | @returning t ts m v ht hv =>
    have hvalue := (hE hv).trans (imprinted_dropSemicolons m)
    rw [List.append_nil] at hvalue
    exact hvalue.keyword ht (by decide)
  | @expression t ts m v _ _ hv =>
    have hvalue := (hE hv).trans (imprinted_dropSemicolon m)
    rwa [List.append_nil] at hvalue

theorem imprinted_body {ss : List Node} (h : Reads.Body E ts r ss) :
    Imprinted (imprintsAll ss) ts r := by
  induction h with
  | closed hc => exact Imprinted.refl.silent hc rfl
  | unclosed => exact .refl
  | cons hs _ ih => exact (imprinted_statement hE hs).trans ih

theorem imprinted_program {ss : List Node} (h : Reads.Program E ts ss) :
    Imprinted (imprintsAll ss) ts [] := by
  induction h with
  | nil => exact .refl
  | cons hs _ ih => exact (imprinted_statement hE hs).trans ih

/-- A block shows its opening brace and its statements. -/
theorem imprinted_block {b : Token} {ss : List Node} (hb : b.kind = .lbrace)
    (h : Reads.Body E ts r ss) : Imprinted (Node.block b.pos ss).imprints (b :: ts) r :=
  (imprinted_body hE h).keyword hb (by decide)

theorem imprinted_else {o : Option Node} (h : Reads.Else E ts r o) :
    Imprinted (imprintsIn o) ts r := by
  cases h with
  | none => exact .refl
  | some he hb h => exact (imprinted_block hE hb h).silent he rfl

theorem imprinted_moreArguments {es : List Node} (h : Reads.MoreArguments E ts r es) :
    Imprinted (imprintsAll es) ts r := by
  induction h with
  | done hp => exact Imprinted.refl.silent hp rfl
  | more hc he _ ih => exact ((hE he).trans ih).silent hc rfl

theorem imprinted_arguments {es : List Node} (h : Reads.Arguments E ts r es) :
    Imprinted (imprintsAll es) ts r := by
  cases h with
  | none hp => exact Imprinted.refl.silent hp rfl
  | some he hm => exact (hE he).trans (imprinted_moreArguments hE hm)

omit hE

theorem imprinted_moreParameters {ns : List Node} (h : Reads.MoreParameters ts r ns) :
    Imprinted (imprintsAll ns) ts r := by
  induction h with
  | done hp => exact Imprinted.refl.silent hp rfl
  | more hc hn _ ih => exact (ih.text hn (by decide)).silent hc rfl

theorem imprinted_parameters {ns : List Node} (h : Reads.Parameters ts r ns) :
    Imprinted (imprintsAll ns) ts r := by
  cases h with
  | none hp => exact Imprinted.refl.silent hp rfl
  | some hn hm => exact (imprinted_moreParameters hm).text hn (by decide)

include hE

theorem imprinted_start {e : Node} (h : Reads.Start E ts r e) : Imprinted e.imprints ts r := by
  cases h with
  | identifier hk => exact Imprinted.refl.text hk (by decide)
  | integer hk hv _ => exact Imprinted.refl.number hk hv
  | string hk => exact Imprinted.refl.text hk (by decide)
  | boolean hk =>
    rcases hk with hk | hk
    · simp only [imprints, hk]
      exact Imprinted.refl.keyword hk (by decide)
    · simp only [imprints, hk]
      exact Imprinted.refl.keyword hk (by decide)
  | unary hk he =>
    refine (hE he).operator ?_
    rcases hk with hk | hk
    · rw [hk]; rfl
    · rw [hk]; rfl
  | group hk he hp =>
    have hinner := (hE he).trans (Imprinted.refl.silent hp rfl)
    rw [List.append_nil] at hinner
    exact hinner.silent hk rfl
  | conditional hk hl hc hp hb hs ha =>
    have hbranches := (imprinted_block hE hb hs).trans (imprinted_else hE ha)
    have hwhole := (hE hc).trans (hbranches.silent hp rfl)
    exact (hwhole.silent hl rfl).keyword hk (by decide)
  | function hk hl hn hb hs =>
    have hwhole := (imprinted_parameters hn).trans (imprinted_block hE hb hs)
    exact (hwhole.silent hl rfl).keyword hk (by decide)

/-- What extends an expression to the right is shown to the right of it. -/
theorem imprinted_extension {power : Nat} {left e : Node}
    (h : Reads.Extension E power left ts r e) :
    ∃ is, e.imprints = left.imprints ++ is ∧ Imprinted is ts r := by
  induction h with
  | done => exact ⟨[], by simp, .refl⟩
  | binary hi _ he _ ih =>
    obtain ⟨is, heq, hrest⟩ := ih
    refine ⟨_, ?_, ((hE he).trans hrest).operator (by simp [Kind.isOperator, hi])⟩
    rw [heq, imprints, List.append_assoc, List.cons_append]
  | call hl _ ha _ ih =>
    obtain ⟨is, heq, hrest⟩ := ih
    refine ⟨_, ?_, ((imprinted_arguments hE ha).trans hrest).silent hl rfl⟩
    rw [heq, imprints, List.append_assoc]

end

/-- **An expression shows the tokens that it was read from**, whatever may be open at once. -/
theorem imprinted_expression (budget : Nat) {power : Nat} {e : Node}
    (h : Reads.Expression budget power ts r e) : Imprinted e.imprints ts r := by
  induction budget generalizing power ts r e with
  | zero => cases h
  | succ budget ih =>
    obtain ⟨m, left, hs, hx⟩ := h
    obtain ⟨is, heq, hrest⟩ := imprinted_extension ih hx
    rw [heq]
    exact (imprinted_start ih hs).trans hrest

/-! ## Whole texts -/

theorem faithful_of_mem_scan {source : String} (ht : t ∈ Token.scan source) : Faithful t := by
  have hw := Token.written_of_mem_scan ht
  constructor
  · intro hop
    refine hw.mark ?_
    cases hk : t.kind <;> simp_all [Kind.isOperator, Kind.isInfix, Kind.isMark]
  · intro v hk hv
    obtain ⟨hne, hdigits⟩ := hw.digits hk
    exact Numeral.eq_of_parse? hne hdigits hv

/-- **A parse without diagnostics loses no token, takes none twice and moves none.** Read from left
to right, the tree shows what the tokens of the text leave, each at its place. -/
theorem imprints_ofSource {source : String} {maxNesting : Int}
    (h : (Parsed.ofSource source { maxNesting }).errors = []) :
    (Parsed.ofSource source { maxNesting }).program.imprints =
      Token.imprints (Token.scan source) := by
  obtain ⟨us, z, hscan, -, hz, hus⟩ := Token.scan_eq source
  have hended : Ended (Token.scan source) := hscan ▸ ended_append hus
  obtain ⟨ss, hprogram, hread⟩ := (errors_ofTokens_eq_nil_iff hended).1 ⟨h, rfl⟩
  rw [hscan, visible_append_eof hus hz] at hread
  have hfaithful : ∀ t ∈ us, Faithful t := fun t ht =>
    faithful_of_mem_scan (hscan ▸ List.mem_append_left [z] ht)
  obtain ⟨-, hshown⟩ := imprinted_program (imprinted_expression maxNesting.toNat) hread hfaithful
  have hlast : Token.imprints (us ++ [z]) = Token.imprints us := by
    simp [Token.imprints, hz, Kind.isSilent]
  rw [Parsed.ofSource, hprogram, hscan, hlast, hshown]
  simp [imprints, Token.imprints]

/-- A text with operators that bind in both directions, calls in calls, blocks and an `else`. -/
def mixedText : String :=
  "LET f = fn(a, b) { if (!a) { return -b ^ (2 - b) } else { a } }; f(f(\"s\", 7), 007) + 1 * 2"

theorem imprints_mixedText :
    (Parsed.ofSource mixedText {}).errors = [] ∧
      (Parsed.ofSource mixedText {}).program.imprints = Token.imprints (Token.scan mixedText) := by
  have htext : mixedText.toList = _ := String.toList_ofList
  have herrors : (Parsed.ofSource mixedText { maxNesting := 500 }).errors = [] := by
    rw [Parsed.ofSource, Token.scan_of_toList htext]
    decide +kernel
  exact ⟨herrors, imprints_ofSource herrors⟩

end Parser

end Scriptlet
