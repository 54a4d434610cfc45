import Mathlib.Data.List.Forall2
import Scriptlet.Proofs.Parser.Composition

/-!
# Two parses side by side

Two lists of tokens that belong together one by one are parsed alike: to statements that belong
together one by one, with the same complaints. What it means to belong together is free, as long
as tokens that do are of one kind, and every rule of the grammar makes trees that do out of tokens
and trees that do.

With a list of tokens and itself this says what holds of all trees that are parsed of good tokens,
also of those that are left when malformed statements were dropped.

* `Correspondence`: which tokens and which trees belong together.
* `Alike`: the states of the two parses belong together.
* `Outcome`: both parsers give results that belong together, or both fail with one complaint.
* `corresponds_expression`: the parser of expressions is alike on both sides.
* `Correspondence.ofTokens`: so are whole parses.
-/

namespace Scriptlet.Parser

open Syntax (Node)
open Token (Kind)
open List (Forall₂)

/-- Two names, each of an identifier, whose tokens belong together. -/
inductive Named (token : Token → Token → Prop) : Node → Node → Prop
  | of {t t' : Token} : token t t' → t.kind = .ident →
      Named token (.identifier t.pos t.text) (.identifier t'.pos t'.text)

/-- Which tokens, expressions, blocks and statements of two parses belong together. -/
structure Correspondence where
  token : Token → Token → Prop
  expression : Node → Node → Prop
  block : Node → Node → Prop
  statement : Node → Node → Prop
  kind {t t' : Token} : token t t' → t'.kind = t.kind
  /-- Integers that belong together are written alike, and so can both be read or neither. -/
  numeral {t t' : Token} : token t t' → t.kind = .int → t'.text = t.text
  ended {t t' : Token} : token t t' → token (.eofAt t.pos) (.eofAt t'.pos)
  nowhere : token (.eofAt .unknown) (.eofAt .unknown)
  identifier {t t' : Token} : token t t' → t.kind = .ident →
    expression (.identifier t.pos t.text) (.identifier t'.pos t'.text)
  integer {t t' : Token} {v : Int} : token t t' → t.kind = .int →
    Numeral.parse? t.text = some v → v ≤ Word.greatest →
    expression (.integer t.pos v) (.integer t'.pos v)
  string {t t' : Token} : token t t' → t.kind = .string →
    expression (.string t.pos t.text) (.string t'.pos t'.text)
  boolean {t t' : Token} (b : Bool) : token t t' →
    expression (.boolean t.pos b) (.boolean t'.pos b)
  unary {t t' : Token} {e e' : Node} : token t t' → starter? t.kind = some .unary →
    expression e e' → expression (.unary t.pos t.text e) (.unary t'.pos t'.text e')
  binary {t t' : Token} {l l' r r' : Node} : token t t' → t.kind.isInfix → expression l l' →
    expression r r' → expression (.binary t.pos l t.text r) (.binary t'.pos l' t'.text r')
  conditional {t t' : Token} {c c' b b' : Node} {o o' : Option Node} : token t t' →
    expression c c' → block b b' → Option.Rel block o o' →
    expression (.conditional t.pos c b o) (.conditional t'.pos c' b' o')
  function {t t' : Token} {ns ns' : List Node} {b b' : Node} : token t t' →
    Forall₂ (Named token) ns ns' → block b b' →
    expression (.function t.pos ns b) (.function t'.pos ns' b')
  call {t t' : Token} {f f' : Node} {es es' : List Node} : token t t' → expression f f' →
    Forall₂ expression es es' → expression (.call t.pos f es) (.call t'.pos f' es')
  braced {t t' : Token} {ss ss' : List Node} : token t t' → Forall₂ statement ss ss' →
    block (.block t.pos ss) (.block t'.pos ss')
  binding {t t' : Token} {n n' e e' : Node} : token t t' → Named token n n' → expression e e' →
    statement (.binding t.pos n e) (.binding t'.pos n' e')
  returning {t t' : Token} {e e' : Node} : token t t' → expression e e' →
    statement (.returning t.pos e) (.returning t'.pos e')
  evaluated {t t' : Token} {e e' : Node} : token t t' → expression e e' →
    statement (.statement t.pos e) (.statement t'.pos e')

namespace Correspondence

variable {C : Correspondence} {s s' : State}

/-! ## States that belong together -/

/-- The current tokens and those ahead belong together, at the same brace depth and after the same
complaints. -/
structure Alike (C : Correspondence) (s s' : State) : Prop where
  cur : C.token s.cur s'.cur
  rest : Forall₂ C.token s.rest s'.rest
  braceDepth : s'.braceDepth = s.braceDepth
  complaints : s'.errors.map Diagnostic.complaint = s.errors.map Diagnostic.complaint

namespace Alike

theorem peek (h : C.Alike s s') : C.token s.peek s'.peek := by
  have hrest := h.rest
  unfold State.peek
  generalize s.rest = ts at hrest ⊢
  generalize s'.rest = ts' at hrest ⊢
  cases hrest with
  | nil => exact C.ended h.cur
  | cons ht _ => exact ht

theorem advance (h : C.Alike s s') : C.Alike s.advance s'.advance := by
  refine ⟨h.peek, ?_, ?_, h.complaints⟩
  · have hrest := h.rest
    show Forall₂ C.token s.rest.tail s'.rest.tail
    generalize s.rest = ts at hrest ⊢
    generalize s'.rest = ts' at hrest ⊢
    cases hrest with
    | nil => exact .nil
    | cons _ hts => exact hts
  · show s'.braceDepth + State.braceStep s'.peek.kind = s.braceDepth + State.braceStep s.peek.kind
    rw [h.braceDepth, C.kind h.peek]

theorem report {d d' : Diagnostic} (h : C.Alike s s') (hd : d'.complaint = d.complaint) :
    C.Alike (s.report d) (s'.report d') := by
  refine ⟨h.cur, h.rest, h.braceDepth, ?_⟩
  simp [State.report, h.complaints, hd]

theorem skipSemicolons (h : C.Alike s s') : C.Alike s.skipSemicolons s'.skipSemicolons := by
  fun_induction State.skipSemicolons s generalizing s' with
  | case1 s hk ih =>
    rw [State.skipSemicolons.eq_def s', dif_pos (by rw [C.kind h.peek, hk])]
    exact ih h.advance
  | case2 s hk =>
    rw [State.skipSemicolons.eq_def s', dif_neg (by rwa [C.kind h.peek])]
    exact h

theorem settled (h : C.Alike s s') (depth : Int) : s'.settled depth = s.settled depth := by
  unfold State.settled
  rw [C.kind h.cur, C.kind h.peek, h.braceDepth]

theorem synchronize (h : C.Alike s s') (depth : Int) :
    C.Alike (s.synchronize depth) (s'.synchronize depth) := by
  fun_induction State.synchronize depth s generalizing s' with
  | case1 s hset =>
    rw [State.synchronize.eq_def depth s', dif_pos (by rwa [h.settled])]
    exact h
  | case2 s hset ih =>
    rw [State.synchronize.eq_def depth s', dif_neg (by rwa [h.settled])]
    exact ih h.advance

end Alike

/-! ## Runs that belong together -/

/-- Both runs give results that `R` holds of, or both fail with one complaint, and the states that
they end in belong together. -/
inductive Outcome (C : Correspondence) {α α' : Type} (R : α → α' → Prop) :
    Except Diagnostic α × State → Except Diagnostic α' × State → Prop
  | given {a : α} {a' : α'} {s s' : State} : R a a' → C.Alike s s' →
      Outcome C R (.ok a, s) (.ok a', s')
  | failed {d d' : Diagnostic} {s s' : State} : d'.complaint = d.complaint → C.Alike s s' →
      Outcome C R (.error d, s) (.error d', s')

/-- From states that belong together the runs of the two parsers do too. -/
def Corresponds (C : Correspondence) {α α' : Type} (R : α → α' → Prop) (p : Parser α)
    (p' : Parser α') : Prop :=
  ∀ s s', C.Alike s s' → C.Outcome R (p s) (p' s')

section

variable {α α' β β' : Type} {R : α → α' → Prop} {R' : β → β' → Prop} {p q : Parser α}
  {p' q' : Parser α'} {f : α → Parser β} {f' : α' → Parser β'}

theorem corresponds_pure {a : α} {a' : α'} (h : R a a') : C.Corresponds R (pure a) (pure a') :=
  fun _ _ hs => .given h hs

theorem corresponds_throw {d d' : Diagnostic} (h : d'.complaint = d.complaint) :
    C.Corresponds R (throw d) (throw d') :=
  fun _ _ hs => .failed h hs

theorem Outcome.bind (hp : C.Outcome R (p s) (p' s'))
    (hf : ∀ a a', R a a' → C.Corresponds R' (f a) (f' a')) :
    C.Outcome R' ((p >>= f) s) ((p' >>= f') s') := by
  rw [bind_run, bind_run]
  generalize p s = r at hp
  generalize p' s' = r' at hp
  cases hp with
  | given ha hs => exact hf _ _ ha _ _ hs
  | failed hd hs => exact .failed hd hs

/-- What only counts around two parsers leaves their runs together. -/
theorem Outcome.counted (hq : Counts q p) (hq' : Counts q' p') (h : C.Alike s s')
    (hp : ∀ t t', t.cur = s.cur → C.Alike t t' → C.Outcome R (p t) (p' t')) :
    C.Outcome R (q s) (q' s') := by
  obtain ⟨n, l, u, n₁, l₁, u₁, hrun⟩ := hq s
  obtain ⟨n', l', u', n₁', l₁', u₁', hrun'⟩ := hq' s'
  have hin := hp { s with nesting := n, traceLevel := l, trace := u }
    { s' with nesting := n', traceLevel := l', trace := u' } rfl
    ⟨h.cur, h.rest, h.braceDepth, h.complaints⟩
  rw [hrun, hrun']
  generalize p { s with nesting := n, traceLevel := l, trace := u } = r at hin
  generalize p' { s' with nesting := n', traceLevel := l', trace := u' } = r' at hin
  cases hin with
  | given ha hs => exact .given ha ⟨hs.cur, hs.rest, hs.braceDepth, hs.complaints⟩
  | failed hd hs => exact .failed hd ⟨hs.cur, hs.rest, hs.braceDepth, hs.complaints⟩

theorem Corresponds.traced (hp : C.Corresponds R p p') (cfg : Config) (rule : Rule) :
    C.Corresponds R (traced cfg rule p) (traced cfg rule p') :=
  fun _ _ h => .counted (counts_traced cfg rule p) (counts_traced cfg rule p') h
    fun t t' _ ht => hp t t' ht

theorem Outcome.cur {f : Token → Parser α} {f' : Token → Parser α'}
    (hf : C.Outcome R (f s.cur s) (f' s'.cur s')) :
    C.Outcome R ((cur >>= f) s) ((cur >>= f') s') := hf

theorem Corresponds.cur {f : Token → Parser α} {f' : Token → Parser α'}
    (hf : ∀ t t', C.token t t' → C.Corresponds R (f t) (f' t')) :
    C.Corresponds R (cur >>= f) (cur >>= f') :=
  fun s s' h => .cur (hf s.cur s'.cur h.cur s s' h)

theorem Corresponds.peek {f : Token → Parser α} {f' : Token → Parser α'}
    (hf : ∀ t t', C.token t t' → C.Corresponds R (f t) (f' t')) :
    C.Corresponds R (peek >>= f) (peek >>= f') :=
  fun s s' h => hf s.peek s'.peek h.peek s s' h

theorem Corresponds.advance {p : Unit → Parser α} {p' : Unit → Parser α'}
    (hp : C.Corresponds R (p ()) (p' ())) :
    C.Corresponds R (advance >>= p) (advance >>= p') :=
  fun _ _ h => hp _ _ h.advance

theorem Corresponds.bind (hp : C.Corresponds R p p')
    (hf : ∀ a a', R a a' → C.Corresponds R' (f a) (f' a')) :
    C.Corresponds R' (p >>= f) (p' >>= f') :=
  fun s s' h => (hp s s' h).bind hf

/-- A token of the given kind is taken on both sides, or missed on both. -/
theorem Outcome.expect {kind : Kind} {p : Unit → Parser α} {p' : Unit → Parser α'}
    (h : C.Alike s s')
    (hp : s.advance.cur.kind = kind → C.Outcome R (p () s.advance) (p' () s'.advance)) :
    C.Outcome R ((expect kind >>= p) s) ((expect kind >>= p') s') := by
  rw [bind_run, bind_run]
  by_cases hk : s.peek.kind = kind
  · rw [expect_run_of_peek hk, expect_run_of_peek (by rw [C.kind h.peek, hk])]
    exact hp hk
  · rw [expect_run_of_not_peek hk, expect_run_of_not_peek (by rwa [C.kind h.peek])]
    exact .failed (by rw [C.kind h.peek]) h

theorem Corresponds.expect {kind : Kind} {p : Unit → Parser α} {p' : Unit → Parser α'}
    (hp : C.Corresponds R (p ()) (p' ())) :
    C.Corresponds R (expect kind >>= p) (expect kind >>= p') :=
  fun _ _ h => .expect h fun _ => hp _ _ h.advance

theorem Corresponds.ite {c c' : Prop} [Decidable c] [Decidable c'] (hc : c ↔ c')
    (hp : c → C.Corresponds R p p') (hq : ¬ c → C.Corresponds R q q') :
    C.Corresponds R (if c then p else q) (if c' then p' else q') := by
  by_cases h : c
  · rw [if_pos h, if_pos (hc.1 h)]
    exact hp h
  · rw [if_neg h, if_neg fun h' => h (hc.2 h')]
    exact hq h

/-- A statement that fails fails on both sides, and the same is skipped. -/
theorem Corresponds.recovering (hp : C.Corresponds R p p') :
    C.Corresponds (Option.Rel R) (recovering p) (recovering p') := by
  intro s s' h
  rw [recovering_run, recovering_run]
  have hrun := hp s s' h
  generalize p s = r at hrun
  generalize p' s' = r' at hrun
  cases hrun with
  | given ha hs => exact .given (.some ha) hs
  | failed hd hs =>
    rw [h.braceDepth]
    exact .given .none ((hs.report hd).synchronize _)

theorem Corresponds.iterate {R : α → α → Prop} {step : α → Parser (Option α)} [Ending step]
    (hstep : ∀ a a', R a a' → C.Corresponds (Option.Rel R) (step a) (step a')) {a a' : α}
    (ha : R a a') : C.Corresponds R (iterate step a) (iterate step a') := by
  intro s s' h
  refine iterate_lockstep (R := fun a a' s s' => R a a' ∧ C.Alike s s') (Q := C.Outcome R) ?_
    ⟨ha, h⟩
  rintro a a' s s' ⟨ha, h⟩
  have hround := hstep a a' ha s s' h
  generalize hr : step a s = r at hround
  generalize hr' : step a' s' = r' at hround
  cases hround with
  | given ho hs =>
    cases ho with
    | none => exact .inr (.inl ⟨_, _, hr, hr', .given ha hs⟩)
    | some ha₁ => exact .inr (.inr ⟨_, _, _, _, hr, hr', ha₁, hs⟩)
  | failed hd hs => exact .inl ⟨_, _, _, _, hr, hr', .failed hd hs⟩

end

end Correspondence

open Correspondence

variable {C : Correspondence} {s s' : State}

/-! ## Statements -/

theorem corresponds_expectName : C.Corresponds (Named C.token) expectName expectName :=
  fun _ _ h => .expect h fun hk => .given (.of h.advance.cur hk) h.advance

section

variable (cfg : Config) {e : Nat → Parser Node}
  (he : ∀ power, C.Corresponds C.expression (e power) (e power))

include he

/-- A value and the semicolons after it. -/
theorem corresponds_value {k k' : Node → Node}
    (hk : ∀ n n', C.expression n n' → C.statement (k n) (k' n')) (power : Nat) :
    C.Corresponds C.statement
      (do advance; let value ← e power; modify State.skipSemicolons; return k value)
      (do advance; let value ← e power; modify State.skipSemicolons; return k' value) := by
  refine .advance ((he power).bind fun n n' hn => ?_)
  exact fun s s' h => .given (hk n n' hn) h.skipSemicolons

theorem corresponds_letStatement :
    C.Corresponds C.statement (letStatement cfg e) (letStatement cfg e) := by
  refine Corresponds.traced (.cur fun t t' ht => ?_) cfg _
  refine corresponds_expectName.bind fun n n' hn => .expect ?_
  exact corresponds_value he (fun _ _ => C.binding ht hn) _

theorem corresponds_returnStatement :
    C.Corresponds C.statement (returnStatement cfg e) (returnStatement cfg e) := by
  refine Corresponds.traced (.cur fun t t' ht => ?_) cfg _
  exact corresponds_value he (fun _ _ => C.returning ht) _

theorem corresponds_expressionStatement :
    C.Corresponds C.statement (expressionStatement cfg e) (expressionStatement cfg e) := by
  refine Corresponds.traced (.cur fun t t' ht => ?_) cfg _
  refine (he _).bind fun n n' hn => .peek fun u u' hu => ?_
  refine .ite (by rw [C.kind hu]) (fun _ => .advance ?_) fun _ => ?_
  · exact corresponds_pure (C.evaluated ht hn)
  · exact corresponds_pure (C.evaluated ht hn)

theorem corresponds_bareStatement :
    C.Corresponds C.statement (bareStatement cfg e) (bareStatement cfg e) := by
  refine .cur fun t t' ht => ?_
  rw [C.kind ht]
  split
  · exact corresponds_letStatement cfg he
  · exact corresponds_returnStatement cfg he
  · exact corresponds_expressionStatement cfg he

theorem corresponds_statement :
    C.Corresponds (Option.Rel C.statement) (statement cfg e) (statement cfg e) :=
  (corresponds_bareStatement cfg he).recovering

theorem corresponds_blockStep (depth : Int) {ss ss' : List Node}
    (hss : Forall₂ C.statement ss ss') :
    C.Corresponds (Option.Rel (Forall₂ C.statement)) (blockStep cfg e depth ss)
      (blockStep cfg e depth ss') := by
  refine .cur fun t t' ht => ?_
  dsimp only
  rw [C.kind ht]
  refine .ite .rfl (fun _ => corresponds_pure .none) fun _ => ?_
  refine (corresponds_statement cfg he).bind fun o o' ho => ?_
  cases ho with
  | some hn => exact .advance (corresponds_pure (.some (List.rel_append hss (.cons hn .nil))))
  | none =>
    intro s s' h
    show C.Outcome _ ((if s.braceDepth < depth then _ else _ : Parser _) s)
      ((if s'.braceDepth < depth then _ else _ : Parser _) s')
    rw [h.braceDepth]
    split
    · exact .given .none h
    · exact .given (.some hss) h.advance

theorem corresponds_programStep {ss ss' : List Node} (hss : Forall₂ C.statement ss ss') :
    C.Corresponds (Option.Rel (Forall₂ C.statement)) (programStep cfg e ss)
      (programStep cfg e ss') := by
  refine .cur fun t t' ht => ?_
  rw [C.kind ht]
  refine .ite .rfl (fun _ => corresponds_pure .none) fun _ => ?_
  refine (corresponds_statement cfg he).bind fun o o' ho => .advance (corresponds_pure (.some ?_))
  cases ho with
  | some hn => exact List.rel_append hss (.cons hn .nil)
  | none => exact List.rel_append hss .nil

variable [∀ power, Moving (e power)]

theorem corresponds_block : C.Corresponds C.block (block cfg e) (block cfg e) := by
  intro s s' h
  refine .counted (counts_block cfg e) (counts_block cfg e) h fun t t' _ ht => ?_
  rw [blockBody_run, blockBody_run, ht.braceDepth]
  have hloop : C.Corresponds (Forall₂ C.statement) (iterate (blockStep cfg e t.braceDepth) [])
      (iterate (blockStep cfg e t.braceDepth) []) :=
    .iterate (fun _ _ hss => corresponds_blockStep cfg he _ hss) .nil
  exact (hloop _ _ ht.advance).bind fun _ _ hss => corresponds_pure (C.braced ht.cur hss)

theorem corresponds_programWith :
    C.Corresponds (fun n n' => ∃ ss ss', n = .program .start ss ∧ n' = .program .start ss' ∧
      Forall₂ C.statement ss ss') (programWith cfg e) (programWith cfg e) := by
  have hloop : C.Corresponds (Forall₂ C.statement) (iterate (programStep cfg e) [])
      (iterate (programStep cfg e) []) :=
    .iterate (fun _ _ hss => corresponds_programStep cfg he hss) .nil
  exact hloop.bind fun ss ss' hss => corresponds_pure ⟨ss, ss', rfl, rfl, hss⟩

end

/-! ## Expressions -/

theorem outcome_identifier (h : C.Alike s s') (hk : s.cur.kind = .ident) :
    C.Outcome C.expression (identifier s) (identifier s') :=
  .given (C.identifier h.cur hk) h

theorem outcome_stringLiteral (h : C.Alike s s') (hk : s.cur.kind = .string) :
    C.Outcome C.expression (stringLiteral s) (stringLiteral s') :=
  .given (C.string h.cur hk) h

theorem outcome_integer (cfg : Config) (h : C.Alike s s') (hk : s.cur.kind = .int) :
    C.Outcome C.expression (integer cfg s) (integer cfg s') := by
  refine .counted (counts_traced cfg _ _) (counts_traced cfg _ _) h fun u u' hu h => ?_
  rw [← hu] at hk
  refine .cur ?_
  rw [C.numeral h.cur hk]
  cases hv : Numeral.parse? u.cur.text with
  | none => exact .failed rfl h
  | some v =>
    dsimp only
    by_cases hgreat : Word.greatest < v
    · rw [if_pos hgreat, if_pos hgreat]
      exact .failed rfl h
    · rw [if_neg hgreat, if_neg hgreat]
      exact .given (C.integer h.cur hk hv (Int.not_lt.1 hgreat)) h

theorem corresponds_boolean : C.Corresponds C.expression boolean boolean := by
  refine .cur fun t t' ht => ?_
  rw [C.kind ht]
  exact corresponds_pure (C.boolean _ ht)

theorem corresponds_parameters :
    C.Corresponds (Forall₂ (Named C.token)) parameters parameters := by
  refine .peek fun t t' ht => ?_
  refine .ite (by rw [C.kind ht]) (fun _ => .advance (corresponds_pure .nil)) fun _ => ?_
  refine corresponds_expectName.bind fun n n' hn => ?_
  have hstep : ∀ ns ns', Forall₂ (Named C.token) ns ns' →
      C.Corresponds (Option.Rel (Forall₂ (Named C.token))) (parametersStep ns)
        (parametersStep ns') := by
    intro ns ns' hns
    refine .peek fun t t' ht => ?_
    refine .ite (by rw [C.kind ht]) (fun _ => corresponds_pure .none) fun _ => .advance ?_
    exact corresponds_expectName.bind fun m m' hm =>
      corresponds_pure (.some (List.rel_append hns (.cons hm .nil)))
  refine (Corresponds.iterate hstep (.cons hn .nil)).bind fun ns ns' hns => ?_
  exact .expect (corresponds_pure hns)

theorem isInfix_of_continuer? {cfg : Config} {k : Kind}
    (hk : cfg.continuer? k = some .binary) : k.isInfix := by
  unfold Config.continuer? continuer? at hk
  split at hk
  · cases hk
  · split at hk
    · assumption
    · split at hk <;> cases hk

section

variable (cfg : Config) {e : Nat → Parser Node}
  (he : ∀ power, C.Corresponds C.expression (e power) (e power))

include he

theorem outcome_unary (h : C.Alike s s') (hk : starter? s.cur.kind = some .unary) :
    C.Outcome C.expression (unary cfg e s) (unary cfg e s') := by
  refine .counted (counts_traced cfg _ _) (counts_traced cfg _ _) h fun u u' hu h => ?_
  rw [← hu] at hk
  have hoperand := (he Kind.prefixPower u.advance u'.advance h.advance)
  exact hoperand.bind fun _ _ hn => corresponds_pure (C.unary h.cur hk hn)

theorem outcome_binary (h : C.Alike s s') (hk : s.cur.kind.isInfix) {l l' : Node}
    (hl : C.expression l l') :
    C.Outcome C.expression (binary cfg e l s) (binary cfg e l' s') := by
  refine .counted (counts_traced cfg _ _) (counts_traced cfg _ _) h fun u u' hu h => ?_
  rw [← hu] at hk
  show C.Outcome C.expression
    ((e u.cur.kind.power >>= fun r => pure (.binary u.cur.pos l u.cur.text r)) u.advance)
    ((e u'.cur.kind.power >>= fun r => pure (.binary u'.cur.pos l' u'.cur.text r)) u'.advance)
  rw [C.kind h.cur]
  have hoperand := (he u.cur.kind.power u.advance u'.advance h.advance)
  exact hoperand.bind fun _ _ hr => corresponds_pure (C.binary h.cur hk hl hr)

theorem corresponds_group : C.Corresponds C.expression (group e) (group e) :=
  .advance ((he _).bind fun _ _ hn => .expect (corresponds_pure hn))

variable [∀ power, Moving (e power)]

theorem corresponds_arguments :
    C.Corresponds (Forall₂ C.expression) (arguments e) (arguments e) := by
  refine .peek fun t t' ht => ?_
  refine .ite (by rw [C.kind ht]) (fun _ => .advance (corresponds_pure .nil)) fun _ => ?_
  refine .advance ((he _).bind fun n n' hn => ?_)
  have hstep : ∀ ns ns', Forall₂ C.expression ns ns' →
      C.Corresponds (Option.Rel (Forall₂ C.expression)) (argumentsStep e ns)
        (argumentsStep e ns') := by
    intro ns ns' hns
    refine .peek fun t t' ht => ?_
    refine .ite (by rw [C.kind ht]) (fun _ => corresponds_pure .none) fun _ => ?_
    refine .advance (.advance ?_)
    exact (he _).bind fun m m' hm =>
      corresponds_pure (.some (List.rel_append hns (.cons hm .nil)))
  refine (Corresponds.iterate hstep (.cons hn .nil)).bind fun ns ns' hns => ?_
  exact .expect (corresponds_pure hns)

theorem corresponds_call {f f' : Node} (hf : C.expression f f') :
    C.Corresponds C.expression (call cfg e f) (call cfg e f') := by
  refine Corresponds.traced (.cur fun t t' ht => ?_) cfg _
  exact (corresponds_arguments he).bind fun es es' hes => corresponds_pure (C.call ht hf hes)

theorem corresponds_elseBlock :
    C.Corresponds (Option.Rel C.block) (elseBlock cfg e) (elseBlock cfg e) := by
  refine .peek fun t t' ht => ?_
  refine .ite (by rw [C.kind ht]) (fun _ => corresponds_pure .none) fun _ => ?_
  refine .advance (.expect ?_)
  exact (corresponds_block cfg he).bind fun b b' hb => corresponds_pure (.some hb)

theorem corresponds_conditional :
    C.Corresponds C.expression (conditional cfg e) (conditional cfg e) := by
  refine Corresponds.traced (.cur fun t t' ht => .expect (.advance ?_)) cfg _
  refine (he _).bind fun c c' hc => .expect (.expect ?_)
  refine (corresponds_block cfg he).bind fun b b' hb => ?_
  refine (corresponds_elseBlock cfg he).bind fun o o' ho => ?_
  exact corresponds_pure (C.conditional ht hc hb ho)

theorem corresponds_functionLiteral :
    C.Corresponds C.expression (functionLiteral cfg e) (functionLiteral cfg e) := by
  refine Corresponds.traced (.cur fun t t' ht => .expect ?_) cfg _
  refine corresponds_parameters.bind fun ns ns' hns => .expect ?_
  refine (corresponds_block cfg he).bind fun b b' hb => ?_
  exact corresponds_pure (C.function ht hns hb)

theorem corresponds_startExpression :
    C.Corresponds C.expression (startExpression cfg e) (startExpression cfg e) := by
  have hstarter : ∀ {k : Kind} {x : Starter}, cfg.starter? k = some x → starter? k = some x := by
    intro k x hx
    unfold Config.starter? at hx
    split at hx
    · cases hx
    · exact hx
  intro s s' h
  refine .cur ?_
  rw [C.kind h.cur]
  cases hx : cfg.starter? s.cur.kind with
  | none => exact .failed rfl h
  | some x =>
    have hkind := hstarter hx
    cases x with
    | identifier => exact outcome_identifier h (by cases hk : s.cur.kind <;> simp_all [starter?])
    | integer => exact outcome_integer cfg h (by cases hk : s.cur.kind <;> simp_all [starter?])
    | string => exact outcome_stringLiteral h (by cases hk : s.cur.kind <;> simp_all [starter?])
    | boolean => exact corresponds_boolean s s' h
    | unary => exact outcome_unary cfg he h hkind
    | group => exact corresponds_group he s s' h
    | conditional => exact corresponds_conditional cfg he s s' h
    | function => exact corresponds_functionLiteral cfg he s s' h

theorem corresponds_extendStep (power : Nat) {l l' : Node} (hl : C.expression l l') :
    C.Corresponds (Option.Rel C.expression) (extendStep cfg e power l)
      (extendStep cfg e power l') := by
  intro s s' h
  show C.Outcome (Option.Rel C.expression)
    ((if s.peek.kind = .semicolon ∨ s.peek.kind.power ≤ power then _ else _ : Parser _) s)
    ((if s'.peek.kind = .semicolon ∨ s'.peek.kind.power ≤ power then _ else _ : Parser _) s')
  rw [C.kind h.peek]
  by_cases hstop : s.peek.kind = .semicolon ∨ s.peek.kind.power ≤ power
  · rw [if_pos hstop, if_pos hstop]
    exact .given .none h
  · rw [if_neg hstop, if_neg hstop]
    cases hc : cfg.continuer? s.peek.kind with
    | none => exact .given .none h
    | some c =>
      cases c with
      | binary =>
        have hinfix := isInfix_of_continuer? hc
        exact (outcome_binary cfg he h.advance hinfix hl).bind fun _ _ hn =>
          corresponds_pure (.some hn)
      | call =>
        exact (corresponds_call cfg he hl _ _ h.advance).bind fun _ _ hn =>
          corresponds_pure (.some hn)

theorem corresponds_expressionWith (power : Nat) :
    C.Corresponds C.expression (expressionWith cfg e power) (expressionWith cfg e power) := by
  refine Corresponds.traced ((corresponds_startExpression cfg he).bind fun n n' hn => ?_) cfg _
  exact .iterate (fun l l' hl => corresponds_extendStep cfg he power hl) hn

end

/-- **Expressions are parsed alike**, by induction on the room for open expressions. -/
theorem corresponds_expression (C : Correspondence) (cfg : Config) (budget : Nat) :
    ∀ power, C.Corresponds C.expression (expression cfg budget power)
      (expression cfg budget power) := by
  induction budget with
  | zero => exact fun power => .cur fun _ _ _ => corresponds_throw rfl
  | succ budget ih =>
    intro power s s' h
    refine .counted (counts_nested _) (counts_nested _) h fun t t' _ ht => ?_
    exact corresponds_expressionWith cfg ih power t t' ht

/-! ## Whole texts -/

/-- **Tokens that belong together one by one are parsed alike**: to statements that belong together
one by one, with the same complaints. -/
theorem Correspondence.ofTokens (C : Correspondence) (cfg : Config) {ts ts' : List Token}
    (h : Forall₂ C.token ts ts') :
    ∃ ss ss', (Parsed.ofTokens ts cfg).program = .program .start ss ∧
      (Parsed.ofTokens ts' cfg).program = .program .start ss' ∧ Forall₂ C.statement ss ss' ∧
      (Parsed.ofTokens ts' cfg).errors.map Diagnostic.complaint =
        (Parsed.ofTokens ts cfg).errors.map Diagnostic.complaint := by
  have hcur : C.token (ts.headD (.eofAt .unknown)) (ts'.headD (.eofAt .unknown)) := by
    cases h with
    | nil => exact C.nowhere
    | cons ht _ => exact ht
  have hstart : C.Alike (State.ofTokens ts) (State.ofTokens ts') := by
    refine ⟨hcur, ?_, congrArg State.braceStep (C.kind hcur), rfl⟩
    cases h with
    | nil => exact .nil
    | cons _ hts => exact hts
  have hparse := corresponds_programWith cfg
    (corresponds_expression C cfg cfg.maxNesting.toNat) _ _ hstart
  rw [← parseProgram_ofTokens, ← parseProgram_ofTokens] at hparse
  unfold Parsed.ofTokens
  generalize parseProgram cfg (State.ofTokens ts) = r at hparse
  generalize parseProgram cfg (State.ofTokens ts') = r' at hparse
  cases hparse with
  | given hss hs =>
    obtain ⟨ss, ss', rfl, rfl, hss⟩ := hss
    exact ⟨ss, ss', rfl, rfl, hss, hs.complaints⟩
  | failed hd hs =>
    refine ⟨[], [], rfl, rfl, .nil, ?_⟩
    simp [hs.complaints, hd]

end Scriptlet.Parser
