import Scriptlet.Proofs.Parser.Lockstep

/-!
# Parsing one text after the other

A semicolon outside all braces parts what is before it from what comes after: the statements on the
two sides are parsed, and their errors reported, as if each side stood alone.

* `Starts`: a parse has come to what stands after the semicolon.
* `ofTokens_append`: the statements and the diagnostics of the two sides, one after the other.
-/

namespace Scriptlet.Parser

open Syntax (Node)
open Token (Kind)
open State (braceStep)

variable {more : List Token} {before : List Diagnostic} {s s' t : State} (cfg : Config)

/-! ## One round -/

section

variable (budget : Nat)

/-- **A round of a program does the same in both parses**: it adds the same statement or none, and
moves on from states that belong together. -/
theorem programStep_together (hs : Sealed more s) (hd : more = [] ∨ 0 ≤ s.braceDepth)
    (h : Tracks more before s t) (hk : s.cur.kind ≠ .eof) :
    ∃ added s₁ t₁, Sealed more s₁ ∧ Tracks more before s₁ t₁ ∧ ∀ ss,
      programStep cfg (expression cfg budget) ss s = (.ok (some (ss ++ added)), s₁.advance) ∧
      programStep cfg (expression cfg budget) ss t = (.ok (some (ss ++ added)), t₁.advance) := by
  have hk' : t.cur.kind ≠ .eof := by rwa [h.cur]
  have hrun := together_bareStatement cfg (refuses_expression cfg budget)
    (follows_expression cfg budget) hs h
  simp only [programStep_run, if_neg hk, if_neg hk']
  generalize bareStatement cfg (expression cfg budget) s = r at hrun
  generalize bareStatement cfg (expression cfg budget) t = r' at hrun
  cases hrun with
  | @given n s₁ t₁ hs₁ h₁ => exact ⟨[n], s₁, t₁, hs₁, h₁, fun ss => ⟨rfl, rfl⟩⟩
  | @failed d s₁ t₁ hs₁ h₁ =>
    obtain ⟨h₂, hs₂⟩ := (h₁.report d).synchronize (hs₁.report d) hd
    refine ⟨[], _, _, hs₂, h₂, fun ss => ?_⟩
    rw [List.append_nil, h.braceDepth]
    exact ⟨rfl, rfl⟩

/-! ## The side before the semicolon -/

/-- The first parse has come to the end of its tokens with the diagnostics of `s`, and the second,
with as many, to the tokens behind them. -/
structure Starts (more : List Token) (s t : State) : Prop where
  tokens : t.cur :: t.rest = more
  braceDepth : t.braceDepth = braceStep t.cur.kind
  errors : t.errors = s.errors

/-- A move over the last semicolon ends the first parse, and takes the second to what is behind. -/
theorem Starts.of_end (h : Tracks more [] s t) (hmore : more ≠ []) (hrest : s.rest = [])
    (hdepth : s.braceDepth = 0) : s.advance.cur.kind = .eof ∧ Starts more s.advance t.advance := by
  obtain ⟨u, ts, hu⟩ := List.exists_cons_of_ne_nil hmore
  have hrest' : t.rest = u :: ts := by rw [h.rest, hrest, hu, List.nil_append]
  have hpeek : t.peek = u := by simp [State.peek, hrest']
  refine ⟨State.peek_eof_of_rest (by rw [hrest]; rfl), ?_, ?_, ?_⟩
  · simp [State.advance, hpeek, hrest', hu]
  · rw [braceDepth_advance, h.braceDepth, hdepth]
    exact Int.zero_add _
  · exact h.errors

/-- Where the two parses can be between statements: before the last semicolon, or behind it. -/
def Seam (more : List Token) (s t : State) : Prop :=
  (Closing s ∧ Tracks more [] s t) ∨ (s.cur.kind = .eof ∧ Starts more s t)

/-- A round at the seam: the first parse ends where the second starts with what is behind, or both
add the same. -/
theorem Seam.round (h : Seam more s t) (hmore : more ≠ [])
    (hnext : ∀ t ∈ more.head?, t.kind ≠ .semicolon) :
    (Starts more s t ∧ ∀ ss, programStep cfg (expression cfg budget) ss s = (.ok none, s)) ∨
      ∃ added s₁ t₁, Seam more s₁ t₁ ∧ ∀ ss,
        programStep cfg (expression cfg budget) ss s = (.ok (some (ss ++ added)), s₁) ∧
        programStep cfg (expression cfg budget) ss t = (.ok (some (ss ++ added)), t₁) := by
  rcases h with ⟨hs, h⟩ | ⟨hk, hstart⟩
  · right
    obtain ⟨added, s₁, t₁, hs₁, h₁, hround⟩ := programStep_together cfg budget
      (.inr ⟨hs, hnext⟩) (.inr hs.nested.nonneg) h (hs.noEof s.cur List.mem_cons_self)
    refine ⟨added, _, _, ?_, hround⟩
    by_cases hin : Inside more s₁
    · exact .inl ⟨(hin.advance.resolve_left hmore).1, h₁.advance hin⟩
    · obtain ⟨hrest, -, hdepth⟩ := hs₁.inside_or.resolve_left hin
      exact .inr (Starts.of_end h₁ hmore hrest hdepth)
  · left
    refine ⟨hstart, fun ss => ?_⟩
    rw [programStep_run, if_pos hk]

/-- **The second parse comes to the tokens behind with what the first parse gives.** -/
theorem Seam.program (h : Seam more s t) (hmore : more ≠ [])
    (hnext : ∀ t ∈ more.head?, t.kind ≠ .semicolon) (ss : List Node) :
    ∃ ss' s' t', Gives (iterate (programStep cfg (expression cfg budget)) ss) s ss' s' ∧
      Starts more s' t' ∧
      iterate (programStep cfg (expression cfg budget)) ss t =
        iterate (programStep cfg (expression cfg budget)) ss' t' := by
  refine iterate_induction (P := fun ss s r => ∀ t, Seam more s t → ∃ ss' s' t',
    r = (.ok ss', s') ∧ Starts more s' t' ∧
      iterate (programStep cfg (expression cfg budget)) ss t =
        iterate (programStep cfg (expression cfg budget)) ss' t') ?_ ?_ ?_ ss s t h
  · intro ss s s' hstep t h
    rcases h.round cfg budget hmore hnext with ⟨hstart, hend⟩ | ⟨_, _, _, -, hround⟩
    · cases hstep.symm.trans (hend ss)
      exact ⟨ss, s, t, rfl, hstart, rfl⟩
    · cases hstep.symm.trans (hround ss).1
  · intro ss s d s' hstep t h
    rcases h.round cfg budget hmore hnext with ⟨-, hend⟩ | ⟨_, _, _, -, hround⟩
    · cases hstep.symm.trans (hend ss)
    · cases hstep.symm.trans (hround ss).1
  · intro ss ss₁ s s₁ r hstep ih t h
    rcases h.round cfg budget hmore hnext with ⟨-, hend⟩ | ⟨added, _, t₁, hseam, hround⟩
    · cases hstep.symm.trans (hend ss)
    · cases hstep.symm.trans (hround ss).1
      have hthere : iterate (programStep cfg (expression cfg budget)) ss t =
          iterate (programStep cfg (expression cfg budget)) (ss ++ added) t₁ := by
        rw [iterate_eq, bind_run, (hround ss).2]
        rfl
      rw [hthere]
      exact ih t₁ hseam

/-! ## The side after the semicolon -/

/-- What was parsed and reported before does not bear on what is parsed next. -/
theorem iterate_programStep_before (h : Tracks [] before s t) (prior ss : List Node) :
    ∃ ss' s' t', Gives (iterate (programStep cfg (expression cfg budget)) ss) s ss' s' ∧
      Gives (iterate (programStep cfg (expression cfg budget)) (prior ++ ss)) t (prior ++ ss') t' ∧
      t'.errors = before ++ s'.errors := by
  refine iterate_lockstep
    (R := fun ss ss₁ s t => ss₁ = prior ++ ss ∧ Tracks [] before s t)
    (Q := fun r r₁ => ∃ ss' s' t', r = (.ok ss', s') ∧ r₁ = (.ok (prior ++ ss'), t') ∧
      t'.errors = before ++ s'.errors) ?_ ⟨rfl, h⟩
  rintro ss _ s t ⟨rfl, h⟩
  by_cases hk : s.cur.kind = .eof
  · refine .inr (.inl ⟨s, t, ?_, ?_, ss, s, t, rfl, rfl, h.errors⟩)
    · rw [Gives, programStep_run, if_pos hk]
    · rw [Gives, programStep_run, if_pos (by rw [h.cur, hk])]
  · obtain ⟨added, s₁, t₁, hs₁, h₁, hround⟩ :=
      programStep_together cfg budget (.inl rfl) (.inl rfl) h hk
    refine .inr (.inr ⟨_, _, _, _, (hround ss).1, (hround (prior ++ ss)).2, ?_, ?_⟩)
    · rw [List.append_assoc]
    · exact h₁.advance ⟨hs₁, .inr rfl⟩

end

/-! ## Whole texts -/

section

variable {tokens : List Token} {ss : List Node}
  (h : Gives (iterate (programStep cfg (expression cfg cfg.maxNesting.toNat)) [])
    (State.ofTokens tokens) ss s')

include h

theorem parseProgram_of_gives :
    parseProgram cfg (State.ofTokens tokens) = (.ok (.program .start ss), s') := by
  rw [parseProgram_ofTokens, programWith, bind_run, h]
  rfl

theorem ofTokens_of_gives :
    Parsed.ofTokens tokens cfg = ⟨.program .start ss, s'.errors, s'.trace.reverse⟩ := by
  unfold Parsed.ofTokens
  rw [parseProgram_of_gives cfg h]

end

theorem seam_ofTokens {first second : List Token} (heof : ∀ t ∈ first, t.kind ≠ .eof)
    (hnest : wellNested first) (hlast : ∃ z ∈ first.getLast?, z.kind = .semicolon) :
    Seam second (State.ofTokens first) (State.ofTokens (first ++ second)) := by
  cases first with
  | nil => simp at hlast
  | cons u ts =>
    exact .inl ⟨⟨nested_ofTokens hnest, heof, hlast⟩, ⟨rfl, rfl, rfl, rfl⟩⟩

theorem Starts.tracks (h : Starts more s t) : Tracks [] s.errors (State.ofTokens more) t := by
  obtain ⟨htokens, hdepth, herrors⟩ := h
  subst htokens
  exact ⟨rfl, by simp [State.ofTokens], hdepth, by simp [State.ofTokens, herrors]⟩

/-- Nothing is parsed of tokens that begin with the end of the text. -/
theorem ofTokens_of_end {tokens : List Token} (hend : (State.ofTokens tokens).cur.kind = .eof) :
    Parsed.ofTokens tokens cfg = ⟨.program .start [], [], []⟩ := by
  have hstop : Gives (iterate (programStep cfg (expression cfg cfg.maxNesting.toNat)) [])
      (State.ofTokens tokens) [] (State.ofTokens tokens) := by
    rw [iterate_eq, gives_bind]
    refine ⟨none, State.ofTokens tokens, ?_, gives_pure.2 ⟨rfl, rfl⟩⟩
    rw [Gives, programStep_run, if_pos hend]
  exact ofTokens_of_gives cfg hstop

theorem ofTokens_nil : Parsed.ofTokens [] cfg = ⟨.program .start [], [], []⟩ :=
  ofTokens_of_end cfg rfl

/-- **A semicolon outside all braces parts a text.** However many statements are malformed on its
two sides, the statements and the diagnostics of the whole are those of the side before it and
then those of the side after it. -/
theorem ofTokens_append {first second : List Token} (heof : ∀ t ∈ first, t.kind ≠ .eof)
    (hnest : wellNested first) (hlast : ∃ z ∈ first.getLast?, z.kind = .semicolon)
    (hnext : ∀ t ∈ second.head?, t.kind ≠ .semicolon) :
    (Parsed.ofTokens (first ++ second) cfg).program =
        .program .start ((Parsed.ofTokens first cfg).program.statements ++
          (Parsed.ofTokens second cfg).program.statements) ∧
      (Parsed.ofTokens (first ++ second) cfg).errors =
        (Parsed.ofTokens first cfg).errors ++ (Parsed.ofTokens second cfg).errors := by
  by_cases hsecond : second = []
  · have hself : Tracks [] [] (State.ofTokens first) (State.ofTokens first) :=
      ⟨rfl, (List.append_nil _).symm, rfl, rfl⟩
    obtain ⟨ss, s', -, hfirst, -⟩ :=
      iterate_programStep_before cfg cfg.maxNesting.toNat hself [] []
    rw [hsecond, List.append_nil, ofTokens_nil, ofTokens_of_gives cfg hfirst]
    exact ⟨by simp [Node.statements], (List.append_nil _).symm⟩
  · obtain ⟨ss, s', t', hfirst, hstart, hthere⟩ :=
      (seam_ofTokens heof hnest hlast).program cfg cfg.maxNesting.toNat hsecond hnext []
    obtain ⟨ss', s'', t'', hrest, hwhole, herrors⟩ :=
      iterate_programStep_before cfg cfg.maxNesting.toNat hstart.tracks ss []
    rw [List.append_nil] at hwhole
    rw [ofTokens_of_gives cfg hfirst, ofTokens_of_gives cfg hrest,
      ofTokens_of_gives cfg (hthere.trans hwhole)]
    exact ⟨rfl, herrors⟩

/-- The tokens of `let 1; { ( } ;`, with no statement that is well formed. -/
def faultyHead : List Token :=
  [⟨.letKey, "let", ⟨1, 1⟩⟩, ⟨.int, "1", ⟨1, 5⟩⟩, ⟨.semicolon, ";", ⟨1, 6⟩⟩,
    ⟨.lbrace, "\x7b", ⟨1, 8⟩⟩, ⟨.lparen, "(", ⟨1, 10⟩⟩, ⟨.rbrace, "\x7d", ⟨1, 12⟩⟩,
    ⟨.semicolon, ";", ⟨1, 14⟩⟩]

/-- The tokens of `} ; x`, on the next line. -/
def faultyTail : List Token :=
  [⟨.rbrace, "\x7d", ⟨2, 1⟩⟩, ⟨.semicolon, ";", ⟨2, 3⟩⟩, ⟨.ident, "x", ⟨2, 5⟩⟩]

theorem ofTokens_faultyHead_append :
    (Parsed.ofTokens (faultyHead ++ faultyTail) {}).program =
        .program .start ((Parsed.ofTokens faultyHead {}).program.statements ++
          (Parsed.ofTokens faultyTail {}).program.statements) ∧
      (Parsed.ofTokens (faultyHead ++ faultyTail) {}).errors =
        (Parsed.ofTokens faultyHead {}).errors ++ (Parsed.ofTokens faultyTail {}).errors :=
  ofTokens_append {} (by decide) (by decide) ⟨_, rfl, rfl⟩ (by decide)

end Scriptlet.Parser
