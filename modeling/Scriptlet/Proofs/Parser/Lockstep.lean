import Scriptlet.Proofs.Parser.Braces

/-!
# Parsing with more tokens behind

Two parses side by side: one of some tokens, the other of the same tokens with more behind them.
They do the same as long as the first does not see the end of its tokens. Where these end on a
semicolon outside all braces, no expression and no block sees that end.

* `Tracks`: the states of the two parses belong together.
* `Sealed`, `Inside`: the tokens end on such a semicolon, or there are no more behind them; and the
  end is not in sight.
* `Follows`: a parser does the same in both parses. All parsers of expressions do.
* `together_bareStatement`, `Tracks.synchronize`: so do statements, and what skips their rest.
-/

namespace Scriptlet.Parser

open Syntax (Node)
open Token (Kind)
open State (braceStep)

variable {more : List Token} {before : List Diagnostic} {s s' t : State} {α β : Type}

/-! ## Tokens that end on a semicolon -/

/-- The tokens of a state end on a semicolon outside all braces, and the end of the text is nowhere
among them. -/
structure Closing (s : State) : Prop where
  nested : s.Nested
  noEof : ∀ t ∈ s.cur :: s.rest, t.kind ≠ .eof
  last : ∃ z ∈ (s.cur :: s.rest).getLast?, z.kind = .semicolon

namespace Closing

theorem advance (h : Closing s) (hr : s.rest ≠ []) : Closing s.advance := by
  obtain ⟨u, ts, hu⟩ := List.exists_cons_of_ne_nil hr
  have hnext : s.advance.cur :: s.advance.rest = s.rest := by
    simp [State.advance, State.peek, hu]
  refine ⟨h.nested.advance, ?_, ?_⟩
  · rw [hnext]
    exact fun t ht => h.noEof t (List.mem_cons_of_mem _ ht)
  · have hlast := h.last
    rwa [hu, List.getLast?_cons_cons, ← hu, ← hnext] at hlast

/-- The last token is the semicolon, and all braces are closed there. -/
theorem at_end (h : Closing s) (hr : s.rest = []) :
    s.cur.kind = .semicolon ∧ s.braceDepth = 0 := by
  obtain ⟨z, hz, hk⟩ := h.last
  have hcloses := h.nested.closes
  rw [hr] at hz hcloses
  simp only [List.getLast?_singleton, Option.mem_def, Option.some.injEq] at hz
  exact ⟨hz ▸ hk, closesFrom_nil.1 hcloses⟩

theorem report (d : Diagnostic) (h : Closing s) : Closing (s.report d) :=
  ⟨⟨h.nested.nonneg, h.nested.opened, h.nested.closes⟩, h.noEof, h.last⟩

theorem count (nesting traceLevel : Nat) (trace : List TraceLine) (h : Closing s) :
    Closing { s with nesting, traceLevel, trace } :=
  ⟨⟨h.nested.nonneg, h.nested.opened, h.nested.closes⟩, h.noEof, h.last⟩

end Closing

/-- The tokens end on a semicolon outside all braces that no other follows, or there are no more
behind them. -/
def Sealed (more : List Token) (s : State) : Prop :=
  more = [] ∨ (Closing s ∧ ∀ t ∈ more.head?, t.kind ≠ .semicolon)

/-- What is behind the tokens is not in sight. -/
def Inside (more : List Token) (s : State) : Prop :=
  Sealed more s ∧ (s.rest ≠ [] ∨ more = [])

theorem Sealed.report (d : Diagnostic) (h : Sealed more s) : Sealed more (s.report d) :=
  h.imp id fun h => ⟨h.1.report d, h.2⟩

theorem Sealed.count (nesting traceLevel : Nat) (trace : List TraceLine) (h : Sealed more s) :
    Sealed more { s with nesting, traceLevel, trace } :=
  h.imp id fun h => ⟨h.1.count nesting traceLevel trace, h.2⟩

theorem Inside.count (nesting traceLevel : Nat) (trace : List TraceLine) (h : Inside more s) :
    Inside more { s with nesting, traceLevel, trace } :=
  ⟨h.1.count nesting traceLevel trace, h.2⟩

theorem Inside.advance (h : Inside more s) : Sealed more s.advance := by
  obtain ⟨hs | ⟨hs, hmore⟩, hr⟩ := h
  · exact .inl hs
  · rcases hr with hr | hr
    · exact .inr ⟨hs.advance hr, hmore⟩
    · exact .inl hr

theorem Sealed.inside_or (h : Sealed more s) :
    Inside more s ∨ (s.rest = [] ∧ s.cur.kind = .semicolon ∧ s.braceDepth = 0) := by
  by_cases hr : s.rest = []
  · rcases h with h | h
    · exact .inl ⟨.inl h, .inr h⟩
    · exact .inr ⟨hr, h.1.at_end hr⟩
  · exact .inl ⟨h, .inl hr⟩

theorem Sealed.inside_of_cur (h : Sealed more s) (hk : s.cur.kind ≠ .semicolon) :
    Inside more s := h.inside_or.resolve_right fun h => hk h.2.1

/-- Inside braces the end is not in sight. -/
theorem Sealed.inside_of_braceDepth (h : Sealed more s) (hd : more = [] ∨ 0 < s.braceDepth) :
    Inside more s := by
  rcases hd with hnil | hpos
  · exact ⟨h, .inr hnil⟩
  · exact h.inside_or.resolve_right fun hend => by omega

/-! ## States that belong together -/

/-- The state `t` of a parse with `more` tokens behind, and with the diagnostics `before`, belongs
to the state `s` of a parse without them. -/
structure Tracks (more : List Token) (before : List Diagnostic) (s t : State) : Prop where
  cur : t.cur = s.cur
  rest : t.rest = s.rest ++ more
  braceDepth : t.braceDepth = s.braceDepth
  errors : t.errors = before ++ s.errors

namespace Tracks

theorem report (d : Diagnostic) (h : Tracks more before s t) :
    Tracks more before (s.report d) (t.report d) :=
  ⟨h.cur, h.rest, h.braceDepth, by simp [State.report, h.errors]⟩

theorem count {n l n' l' : Nat} {u u' : List TraceLine} (h : Tracks more before s t) :
    Tracks more before { s with nesting := n, traceLevel := l, trace := u }
      { t with nesting := n', traceLevel := l', trace := u' } :=
  ⟨h.cur, h.rest, h.braceDepth, h.errors⟩

theorem peek (h : Tracks more before s t) (hs : Inside more s) : t.peek = s.peek := by
  unfold State.peek
  rw [h.rest, h.cur]
  rcases hs.2 with hr | hr
  · obtain ⟨u, ts, hu⟩ := List.exists_cons_of_ne_nil hr
    rw [hu]
    rfl
  · rw [hr, List.append_nil]

theorem advance (h : Tracks more before s t) (hs : Inside more s) :
    Tracks more before s.advance t.advance := by
  have hpeek := h.peek hs
  refine ⟨hpeek, ?_, ?_, h.errors⟩
  · simp only [State.advance, h.rest]
    rcases hs.2 with hr | hr
    · exact List.tail_append_of_ne_nil hr
    · rw [hr, List.append_nil, List.append_nil]
  · rw [braceDepth_advance, braceDepth_advance, hpeek, h.braceDepth]

/-- Past the last semicolon there is no other one, so that both parses skip the same. -/
theorem skipSemicolons (h : Tracks more before s t) (hs : Sealed more s) :
    Tracks more before s.skipSemicolons t.skipSemicolons ∧ Sealed more s.skipSemicolons := by
  fun_induction State.skipSemicolons s generalizing t with
  | case1 s hk ih =>
    have hin : Inside more s := ⟨hs, .inl (s.rest_ne_nil_of_peek (by rw [hk]; decide))⟩
    rw [State.skipSemicolons.eq_def t, dif_pos (by rw [h.peek hin, hk])]
    exact ih (h.advance hin) hin.advance
  | case2 s hk =>
    have hpeek : t.peek.kind ≠ .semicolon := by
      by_cases hin : Inside more s
      · rwa [h.peek hin]
      · have hr := (hs.inside_or.resolve_left hin).1
        have hmore := (hs.resolve_left fun hnil => hin ⟨hs, .inr hnil⟩).2
        rw [State.peek, h.rest, hr, List.nil_append]
        cases more with
        | nil => simp [Token.eofAt]
        | cons u ts => exact hmore u rfl
    rw [State.skipSemicolons.eq_def t, dif_neg hpeek]
    exact ⟨h, hs⟩

theorem settled {depth : Int} (h : Tracks more before s t) (hs : Inside more s) :
    t.settled depth = s.settled depth := by
  unfold State.settled
  rw [h.cur, h.braceDepth, h.peek hs]

/-- The last semicolon ends every failed statement, so that both parses skip the same. -/
theorem synchronize {depth : Int} (h : Tracks more before s t) (hs : Sealed more s)
    (hd : more = [] ∨ 0 ≤ depth) :
    Tracks more before (s.synchronize depth) (t.synchronize depth) ∧
      Sealed more (s.synchronize depth) := by
  fun_induction State.synchronize depth s generalizing t with
  | case1 s hset =>
    have hset' : t.settled depth := by
      by_cases hin : Inside more s
      · rwa [h.settled hin]
      · obtain ⟨-, hcur, hzero⟩ := hs.inside_or.resolve_left hin
        have hd := hd.resolve_left fun hnil => hin ⟨hs, .inr hnil⟩
        have hcur' : t.cur.kind = .semicolon := by rw [h.cur, hcur]
        have hzero' : t.braceDepth = 0 := by rw [h.braceDepth, hzero]
        by_cases hpos : depth = 0
        · simp [State.settled, hcur', hzero', hpos]
        · have hlt : t.braceDepth < depth := by omega
          simp [State.settled, hlt]
    rw [State.synchronize.eq_def depth t, dif_pos hset']
    exact ⟨h, hs⟩
  | case2 s hset ih =>
    have hin : Inside more s := by
      refine hs.inside_or.resolve_right fun hend => hset ?_
      simp [State.settled, State.peek_eof_of_rest (List.length_eq_zero_iff.2 hend.1)]
    rw [State.synchronize.eq_def depth t, dif_neg (by rwa [h.settled hin])]
    exact ih (h.advance hin) hin.advance

end Tracks

/-! ## Parsers that do the same -/

/-- The runs of the two parses come to the same: both give a result, in states of which the first
has the property `I`, or both fail. -/
inductive Together (more : List Token) (before : List Diagnostic) (I : State → Prop) :
    Except Diagnostic α × State → Except Diagnostic α × State → Prop
  | given {a : α} {s t : State} : I s → Tracks more before s t →
      Together more before I (.ok a, s) (.ok a, t)
  | failed {d : Diagnostic} {s t : State} : Sealed more s → Tracks more before s t →
      Together more before I (.error d, s) (.error d, t)

/-- A parser that does the same in both parses while the end of the tokens is not in sight. -/
def Follows (more : List Token) (before : List Diagnostic) (I : State → Prop) (p : Parser α) :
    Prop :=
  ∀ s t, Inside more s → Tracks more before s t → Together more before I (p s) (p t)

section

variable {I : State → Prop}

theorem Together.bind {p : Parser α} {f : α → Parser β}
    (hp : Together more before (Inside more) (p s) (p t))
    (hf : ∀ a, Follows more before I (f a)) :
    Together more before I ((p >>= f) s) ((p >>= f) t) := by
  rw [bind_run, bind_run]
  generalize p s = r at hp
  generalize p t = r' at hp
  cases hp with
  | given hs h => exact hf _ _ _ hs h
  | failed hs h => exact .failed hs h

theorem Follows.bind {p : Parser α} {f : α → Parser β} (hp : Follows more before (Inside more) p)
    (hf : ∀ a, Follows more before I (f a)) : Follows more before I (p >>= f) :=
  fun s t hs h => (hp s t hs h).bind hf

theorem Together.counted {q p : Parser α} (hq : Counts q p)
    (hI : ∀ s n l u, I s → I { s with nesting := n, traceLevel := l, trace := u })
    (hp : ∀ n l u n' l' u',
      Together more before I (p { s with nesting := n, traceLevel := l, trace := u })
        (p { t with nesting := n', traceLevel := l', trace := u' })) :
    Together more before I (q s) (q t) := by
  obtain ⟨n, l, u, n', l', u', hrun⟩ := hq s
  obtain ⟨m, k, v, m', k', v', hrun'⟩ := hq t
  have hin := hp n l u m k v
  rw [hrun, hrun']
  generalize p { s with nesting := n, traceLevel := l, trace := u } = r at hin
  generalize p { t with nesting := m, traceLevel := k, trace := v } = r' at hin
  cases hin with
  | given hs h => exact .given (hI _ n' l' u' hs) h.count
  | failed hs h => exact .failed (hs.count n' l' u') h.count

theorem Follows.counted {q p : Parser α} (hq : Counts q p)
    (hI : ∀ s n l u, I s → I { s with nesting := n, traceLevel := l, trace := u })
    (hp : Follows more before I p) : Follows more before I q :=
  fun _ _ hs h => .counted hq hI fun n l u _ _ _ => hp _ _ (hs.count n l u) h.count

theorem Follows.iterate {step : α → Parser (Option α)} [Ending step]
    (hstep : ∀ a, Follows more before (Inside more) (step a)) (a : α) :
    Follows more before (Inside more) (iterate step a) := by
  intro s t hs h
  refine iterate_lockstep (R := fun a b s t => a = b ∧ Inside more s ∧ Tracks more before s t)
    (Q := Together more before (Inside more)) ?_ ⟨rfl, hs, h⟩
  rintro a _ s t ⟨rfl, hs, h⟩
  have hround := hstep a s t hs h
  generalize hr : step a s = r at hround
  generalize hr' : step a t = r' at hround
  cases hround with
  | @given o s₁ t₁ hs h =>
    cases o with
    | none => exact .inr (.inl ⟨s₁, t₁, hr, hr', .given hs h⟩)
    | some a₁ => exact .inr (.inr ⟨a₁, a₁, s₁, t₁, hr, hr', rfl, hs, h⟩)
  | @failed d s₁ t₁ hs h => exact .inl ⟨d, d, s₁, t₁, hr, hr', .failed hs h⟩

end

theorem follows_pure (a : α) : Follows more before (Inside more) (pure a) :=
  fun _ _ hs h => .given hs h

theorem follows_cur : Follows more before (Inside more) cur := by
  intro s t hs h
  show Together more before (Inside more) (.ok s.cur, s) (.ok t.cur, t)
  rw [h.cur]
  exact .given hs h

theorem follows_peek : Follows more before (Inside more) peek := by
  intro s t hs h
  show Together more before (Inside more) (.ok s.peek, s) (.ok t.peek, t)
  rw [h.peek hs]
  exact .given hs h

/-- A token that is no semicolon is not the last. -/
theorem follows_expect {kind : Kind} (hk : kind ≠ .semicolon) :
    Follows more before (Inside more) (expect kind) := by
  intro s t hs h
  by_cases hp : s.peek.kind = kind
  · rw [expect_run_of_peek hp, expect_run_of_peek (by rw [h.peek hs, hp])]
    exact .given (hs.advance.inside_of_cur fun hc => hk (hp.symm.trans hc)) (h.advance hs)
  · rw [expect_run_of_not_peek hp, expect_run_of_not_peek (by rwa [h.peek hs]), h.peek hs]
    exact .failed hs.1 h

/-- Where no expression starts both parses fail with the same complaint. -/
theorem Refuses.together {p : Parser α} {I : State → Prop} (hp : Refuses p)
    (hk : starter? s.cur.kind = none) (hs : Sealed more s) (h : Tracks more before s t) :
    Together more before I (p s) (p t) := by
  obtain ⟨c, -, hfail⟩ := hp
  obtain ⟨_, _, _, hrun⟩ := hfail s hk
  obtain ⟨_, _, _, hrun'⟩ := hfail t (by rwa [h.cur])
  have hsame : (⟨c t.cur.kind, t.cur.pos⟩ : Diagnostic) = ⟨c s.cur.kind, s.cur.pos⟩ := by
    rw [h.cur]
  rw [hrun, hrun', hsame]
  exact .failed (hs.count _ _ _) h.count

/-- An operand starts at a token that is no semicolon, or fails right there. -/
theorem follows_operand {e : Parser Node} (hr : Refuses e)
    (he : Follows more before (Inside more) e) :
    Follows more before (Inside more) (advance >>= fun _ => e) := by
  intro s t hs h
  show Together more before (Inside more) (e s.advance) (e t.advance)
  have hnext := h.advance hs
  by_cases hk : starter? s.advance.cur.kind = none
  · exact hr.together hk hs.advance hnext
  · refine he _ _ (hs.advance.inside_of_cur fun hc => hk ?_) hnext
    rw [hc]
    rfl

/-! ## Statements -/

section

variable (cfg : Config) {e : Nat → Parser Node} (hr : ∀ power, Refuses (e power))
  (he : ∀ power, Follows more before (Inside more) (e power))

include he

theorem follows_expressionStatement :
    Follows more before (Sealed more) (expressionStatement cfg e) := by
  refine Follows.counted (counts_traced cfg _ _) (fun _ n l u h => h.count n l u) ?_
  refine follows_cur.bind fun first => ?_
  refine (he _).bind fun value => ?_
  intro s t hs h
  show Together more before (Sealed more)
    ((if s.peek.kind = .semicolon then advance >>= fun _ => _ else _ : Parser Node) s)
    ((if t.peek.kind = .semicolon then advance >>= fun _ => _ else _ : Parser Node) t)
  rw [h.peek hs]
  split
  · exact .given hs.advance (h.advance hs)
  · exact .given hs.1 h

include hr

theorem follows_operand_bind {I : State → Prop} {k : Node → Parser β} (power : Nat)
    (hk : ∀ n, Follows more before I (k n)) :
    Follows more before I (advance >>= fun _ => e power >>= k) := by
  rw [← bind_assoc]
  exact (follows_operand (hr power) (he power)).bind hk

/-- A statement with a value of its own takes all semicolons after it. -/
theorem follows_value {k : Node → Node} (power : Nat) :
    Follows more before (Sealed more) (do
      advance
      let value ← e power
      modify State.skipSemicolons
      return k value) := by
  refine follows_operand_bind hr he power fun value => ?_
  intro s t hs h
  obtain ⟨htracks, hsealed⟩ := h.skipSemicolons hs.1
  exact .given hsealed htracks

theorem follows_letStatement : Follows more before (Sealed more) (letStatement cfg e) := by
  have hname : Follows more before (Inside more) expectName :=
    (follows_expect (by decide)).bind fun _ => follows_cur.bind fun _ => follows_pure _
  refine Follows.counted (counts_traced cfg _ _) (fun _ n l u h => h.count n l u) ?_
  refine follows_cur.bind fun first => hname.bind fun name => ?_
  exact (follows_expect (by decide)).bind fun _ => follows_value hr he _

theorem follows_returnStatement : Follows more before (Sealed more) (returnStatement cfg e) := by
  refine Follows.counted (counts_traced cfg _ _) (fun _ n l u h => h.count n l u) ?_
  exact follows_cur.bind fun first => follows_value hr he _

theorem follows_bareStatement : Follows more before (Sealed more) (bareStatement cfg e) := by
  refine follows_cur.bind fun token => ?_
  split
  · exact follows_letStatement cfg hr he
  · exact follows_returnStatement cfg hr he
  · exact follows_expressionStatement cfg he

/-- **A statement does the same in both parses**, up to the last semicolon, where none starts. -/
theorem together_bareStatement (hs : Sealed more s) (h : Tracks more before s t) :
    Together more before (Sealed more) (bareStatement cfg e s) (bareStatement cfg e t) := by
  rcases hs.inside_or with hin | ⟨-, hcur, -⟩
  · exact follows_bareStatement cfg hr he s t hin h
  · have hb : bounding s.cur.kind := by rw [hcur]; rfl
    have hb' : bounding t.cur.kind := by rwa [h.cur]
    rw [bareStatement_run_of_bounding hb, bareStatement_run_of_bounding hb']
    exact (refuses_expressionStatement cfg hr).together (starter?_of_bounding hb) hs h

end

/-! ## Blocks -/

section

variable {cfg : Config} {budget : Nat}
  (hl : ∀ power, Level cfg Node (expression cfg budget power))
  (he : ∀ power, Follows more before (Inside more) (expression cfg budget power))

/-- Between the statements of a block that is open the end of the tokens is not in sight. -/
theorem Between.inside {u : State} (h : Between cfg budget s u) (hu : Sealed more u)
    (hd : more = [] ∨ 0 < s.braceDepth) : Inside more u := by
  rcases h.within.above_or (Int.le_refl _) with habove | ⟨-, hcur⟩
  · have hle := habove.le_braceDepth (Int.le_refl _)
    exact hu.inside_of_braceDepth (hd.imp id fun hpos => by omega)
  · exact hu.inside_of_cur (by rw [hcur]; decide)

include hl he

/-- A round of a block does the same in both parses. -/
theorem together_blockStep {u v : State} (h : Between cfg budget s u) (hu : Sealed more u)
    (hd : more = [] ∨ 0 < s.braceDepth) (huv : Tracks more before u v) (ss : List Node) :
    Together more before (Sealed more) (blockStep cfg (expression cfg budget) s.braceDepth ss u)
      (blockStep cfg (expression cfg budget) s.braceDepth ss v) := by
  rw [blockStep_run, blockStep_run, huv.cur, huv.braceDepth]
  split
  · exact .given hu huv
  · rename_i hend
    have hopen : s.braceDepth ≤ u.braceDepth :=
      (h.above fun hk => hend (.inl hk)).le_braceDepth (Int.le_refl _)
    have hlevel := level_bareStatement cfg (refuses_expression cfg budget) hl u
    have hrun := together_bareStatement cfg (refuses_expression cfg budget) he hu huv
    generalize bareStatement cfg (expression cfg budget) u = r at hlevel hrun
    generalize bareStatement cfg (expression cfg budget) v = r' at hrun
    cases hrun with
    | @given n u₁ v₁ hs h₁ =>
      have hle := hlevel.1.le_braceDepth (Int.le_refl _)
      have hin := hs.inside_of_braceDepth (hd.imp id fun hpos => by omega)
      exact .given hin.advance (h₁.advance hin)
    | @failed d u₁ v₁ hs h₁ =>
      have hskip : more = [] ∨ 0 ≤ u.braceDepth := hd.imp id fun hpos => by omega
      obtain ⟨h₂, hs₂⟩ := (h₁.report d).synchronize (hs.report d) hskip
      dsimp only
      rw [h₂.braceDepth]
      split
      · exact .given hs₂ h₂
      · have hin := hs₂.inside_of_braceDepth (hd.imp id fun hpos => by omega)
        exact .given hin.advance (h₂.advance hin)

/-- A block that is open does the same in both parses. -/
theorem together_blockBody (hs : Inside more s) (hd : more = [] ∨ 0 < s.braceDepth)
    (h : Tracks more before s t) :
    Together more before (Inside more) (blockBody cfg (expression cfg budget) s)
      (blockBody cfg (expression cfg budget) t) := by
  have hloop : Together more before (Inside more)
      (iterate (blockStep cfg (expression cfg budget) s.braceDepth) [] s.advance)
      (iterate (blockStep cfg (expression cfg budget) s.braceDepth) [] t.advance) := by
    refine iterate_lockstep
      (R := fun a b u v => a = b ∧ Rounds cfg (expression cfg budget) s u ∧
        Between cfg budget s u ∧ Sealed more u ∧ Tracks more before u v)
      (Q := Together more before (Inside more)) ?_
      ⟨rfl, .first _ _ _, between_advance cfg budget s, hs.advance, h.advance hs⟩
    rintro ss _ u v ⟨rfl, hrounds, hu, hsealed, huv⟩
    have hround := together_blockStep hl he hu hsealed hd huv ss
    obtain ⟨o, u₁, hrun, hnext, -⟩ := hu.round hrounds hl ss
    generalize hrun' : blockStep cfg (expression cfg budget) s.braceDepth ss v = r' at hround
    rw [hrun] at hround
    cases hround with
    | @given _ _ v₁ hs₁ h₁ =>
      cases o with
      | none => exact .inr (.inl ⟨u₁, v₁, hrun, hrun', .given (hnext.inside hs₁ hd) h₁⟩)
      | some ss₁ =>
        have hnextRound := hrounds.next hrun
        exact .inr (.inr ⟨ss₁, ss₁, u₁, v₁, hrun, hrun', rfl, hnextRound, hnext, hs₁, h₁⟩)
  rw [blockBody_run, blockBody_run, h.cur, h.braceDepth]
  exact hloop.bind fun ss => follows_pure _

theorem follows_braced :
    Follows more before (Inside more)
      (expect .lbrace >>= fun _ => block cfg (expression cfg budget)) := by
  intro s t hs h
  by_cases hk : s.peek.kind = .lbrace
  · have hin : Inside more s.advance :=
      hs.advance.inside_of_cur fun hc => by cases hk.symm.trans hc
    have hd : more = [] ∨ 0 < s.advance.braceDepth :=
      hin.1.imp id fun hclosing => hclosing.1.nested.braceDepth_pos hk
    rw [bind_run, bind_run, expect_run_of_peek hk, expect_run_of_peek (by rw [h.peek hs, hk])]
    show Together more before (Inside more) (block cfg (expression cfg budget) s.advance)
      (block cfg (expression cfg budget) t.advance)
    refine .counted (counts_block cfg (expression cfg budget)) (fun _ n l u h => h.count n l u) ?_
    intro n l u _ _ _
    exact together_blockBody hl he (hin.count n l u) hd (h.advance hs).count
  · rw [bind_run, bind_run, expect_run_of_not_peek hk,
      expect_run_of_not_peek (by rwa [h.peek hs]), h.peek hs]
    exact .failed hs.1 h

end

theorem compositional_follows (cfg : Config) (more : List Token) (before : List Diagnostic) :
    Compositional cfg fun α p => Level cfg α p ∧ Follows more before (Inside more) p := by
  have hlevel := compositional_level cfg
  have hcount (s : State) (n l u) (h : Inside more s) := h.count n l u
  exact {
    give := fun a => ⟨hlevel.give a, follows_pure a⟩
    fail := fun d => ⟨hlevel.fail d, fun _ _ hs h => .failed hs.1 h⟩
    current := ⟨hlevel.current, follows_cur⟩
    next := ⟨hlevel.next, follows_peek⟩
    seq := fun hp hf => ⟨hlevel.seq hp.1 fun a => (hf a).1, hp.2.bind fun a => (hf a).2⟩
    token := fun hk => ⟨hlevel.token hk, follows_expect fun h => by rw [h] at hk; cases hk⟩
    deeper := fun hp => ⟨hlevel.deeper hp.1, hp.2.counted (counts_nested _) hcount⟩
    rule := fun r _ hp => ⟨hlevel.rule r hp.1, hp.2.counted (counts_traced cfg r _) hcount⟩
    loop := fun hstep a =>
      ⟨hlevel.loop (fun a => (hstep a).1) a, Follows.iterate (fun a => (hstep a).2) a⟩
    operand := fun hr he => ⟨hlevel.operand hr he.1, follows_operand hr he.2⟩
    braced := fun he => ⟨hlevel.braced fun power => (he power).1,
      follows_braced (fun power => (he power).1) fun power => (he power).2⟩ }

/-- **An expression does the same in both parses**, whatever it is given and however it ends. -/
theorem follows_expression (cfg : Config) (budget power : Nat) :
    Follows more before (Inside more) (expression cfg budget power) :=
  ((compositional_follows cfg more before).holds_expression budget power).2

end Scriptlet.Parser
