import Scriptlet.Proofs.Parser.Append
import Scriptlet.Proofs.Parser.Correspondence
import Scriptlet.Proofs.Syntax.Places
import Scriptlet.Proofs.Token.Lines

/-!
# Texts without diagnostics, one below the other

A text without diagnostics that closes all its braces and ends on a semicolon can have another one
below it: the statements of both, one after the other, are those of the two texts together.

* `balanced`: as many braces are closed as are opened.
* `wellNested_of_balanced`: without diagnostics, these are well nested.
* `ofTokens_split`: what comes before the semicolon does not depend on what comes after.
* `placeless`: tokens and trees that differ in places only.
* `ofSource_append_line`: the statements of the two texts together.
-/

namespace Scriptlet.Parser

open Syntax (Node)
open Token (Kind)
open State (braceStep)
open List (Forall₂)

variable {s s' : State} {ts : List Token} (cfg : Config)

/-! ## Braces that are opened and closed -/

/-- As many braces are closed as are opened. -/
def balanced (ts : List Token) : Bool :=
  ts.countP (·.kind == .lbrace) == ts.countP (·.kind == .rbrace)

/-- The braces that are opened, less those that are closed. -/
def tally : List Token → Int
  | [] => 0
  | t :: ts => braceStep t.kind + tally ts

theorem tally_eq_count (ts : List Token) :
    tally ts = ts.countP (·.kind == .lbrace) - ts.countP (·.kind == .rbrace) := by
  induction ts with
  | nil => rfl
  | cons t ts ih =>
    rw [tally, ih, List.countP_cons, List.countP_cons]
    cases t.kind <;> simp [braceStep] <;> omega

theorem Moves.tally (h : Moves s s') :
    s'.braceDepth + tally s'.rest = s.braceDepth + tally s.rest := by
  induction h with
  | refl => rfl
  | @advance s' _ ih =>
    rw [← ih, braceDepth_advance]
    cases hr : s'.rest with
    | nil => simp [State.peek, State.advance, hr, Token.eofAt, braceStep]
    | cons t ts =>
      have hpeek : s'.peek = t := by simp [State.peek, hr]
      have hrest : s'.advance.rest = ts := by simp [State.advance, hr]
      rw [hpeek, hrest, Parser.tally]
      omega
  | report _ _ ih => exact ih
  | count _ _ _ _ ih => exact ih

/-- Where a parse has not fallen below the outermost depth, the braces on its way belong to those
ahead. -/
theorem Above.closesFrom (h : Above 0 s s') (hc : closesFrom s'.braceDepth s'.rest) :
    closesFrom s.braceDepth s.rest := by
  induction h with
  | refl => exact hc
  | @advance s' _ hle ih =>
    refine ih ?_
    rw [braceDepth_advance] at hle hc
    cases hr : s'.rest with
    | nil =>
      have hpeek : braceStep s'.peek.kind = 0 := by simp [State.peek, hr, Token.eofAt, braceStep]
      have hrest : s'.advance.rest = [] := by simp [State.advance, hr]
      rwa [hpeek, hrest, Int.add_zero] at hc
    | cons t ts =>
      have hpeek : s'.peek = t := by simp [State.peek, hr]
      have hrest : s'.advance.rest = ts := by simp [State.advance, hr]
      rw [hpeek] at hle hc
      rw [hrest] at hc
      exact closesFrom_cons.2 ⟨hle, hc⟩
  | report _ _ ih => exact ih hc
  | count _ _ _ _ ih => exact ih hc

/-- A statement that is given does not start at a token that bounds statements. -/
theorem bounding_of_gives {budget : Nat} {n : Node}
    (h : Gives (bareStatement cfg (expression cfg budget)) s n s') :
    bounding s.cur.kind = false := by
  refine Bool.eq_false_iff.2 fun hb => ?_
  obtain ⟨c, -, hfail⟩ := refuses_expressionStatement cfg (refuses_expression cfg budget)
  obtain ⟨_, _, _, hrun⟩ := hfail s (starter?_of_bounding hb)
  rw [Gives, bareStatement_run_of_bounding hb, hrun] at h
  cases h

/-- Statements without diagnostics never close a brace that is not open: none starts at one. So if
all braces are closed at the end, they are well nested. -/
theorem closesFrom_of_yields {budget : Nat} {ss ss' : List Node}
    (h : Yields (iterate (programStep cfg (expression cfg budget)) ss) s ss' s') (hs : s.Tidy)
    (hbefore : braceStep s.cur.kind ≤ s.braceDepth) (htally : s.braceDepth + tally s.rest = 0) :
    0 ≤ s.braceDepth ∧ closesFrom s.braceDepth s.rest := by
  refine yields_iterate_induction (P := fun _ s => s.Tidy → braceStep s.cur.kind ≤ s.braceDepth →
    s.braceDepth + tally s.rest = 0 → 0 ≤ s.braceDepth ∧ closesFrom s.braceDepth s.rest)
    ?_ ?_ h hs hbefore htally
  · intro s hstop hs hbefore htally
    rcases yields_programStep.1 hstop with ⟨hk, -, -⟩ | ⟨-, _, _, -, ho, -⟩
    · rw [hs.rest_eq_nil hk] at htally ⊢
      rw [tally, Int.add_zero] at htally
      exact ⟨by omega, closesFrom_nil.2 htally⟩
    · cases ho
  · intro ss ss₁ s s₁ hround ih hs hbefore htally
    rcases yields_programStep.1 hround with ⟨-, ho, -⟩ | ⟨-, n, s₂, hn, -, rfl⟩
    · cases ho
    · have hgives : Gives (bareStatement cfg (expression cfg budget)) s n s₂ :=
        gives_recovering_some.1 hn.1
      have hstep := braceStep_of_bounding (bounding_of_gives cfg hgives)
      have hdepth : 0 ≤ s.braceDepth := by omega
      have hlevel := level_bareStatement cfg (refuses_expression cfg budget)
        (level_expression cfg budget) s
      rw [hgives] at hlevel
      have habove : Above 0 s s₂ := hlevel.1.mono hdepth
      have hnext : 0 ≤ s₂.braceDepth := habove.le_braceDepth hdepth
      have hmoves : Moves s s₂.advance := habove.moves.advance
      obtain ⟨hdepth₁, hcloses⟩ := ih (hmoves.tidy hs)
        (by rw [braceDepth_advance]; show braceStep s₂.peek.kind ≤ _; omega)
        (hmoves.tally.trans htally)
      exact ⟨hdepth, (habove.advance hdepth₁).closesFrom hcloses⟩

/-! ## Whole parses -/

/-- A program is parsed, with or without diagnostics. -/
theorem exists_gives_program (budget : Nat) (ss : List Node) (s : State) :
    ∃ ss' s', Gives (iterate (programStep cfg (expression cfg budget)) ss) s ss' s' := by
  refine iterate_induction (P := fun _ _ r => ∃ ss' s', r = (.ok ss', s')) ?_ ?_ ?_ ss s
  · exact fun ss _ s' _ => ⟨ss, s', rfl⟩
  · intro ss s d s' hfails
    rw [Fails, programStep_run] at hfails
    split at hfails
    · cases hfails
    · split at hfails <;> cases hfails
  · exact fun _ _ _ _ _ _ hr => hr

/-- No diagnostic gets out of a parse. -/
theorem parseProgram_eq_ok (ts : List Token) : ∃ s,
    parseProgram cfg (State.ofTokens ts) = (.ok (Parsed.ofTokens ts cfg).program, s) ∧
      s.errors = (Parsed.ofTokens ts cfg).errors := by
  obtain ⟨ss, s', hgives⟩ := exists_gives_program cfg cfg.maxNesting.toNat [] (State.ofTokens ts)
  rw [ofTokens_of_gives cfg hgives]
  exact ⟨s', parseProgram_of_gives cfg hgives, rfl⟩

theorem program_ofSource (source : String) : (Parsed.ofSource source cfg).program =
    .program .start (Parsed.ofSource source cfg).program.statements := by
  obtain ⟨ss, s', hgives⟩ := exists_gives_program cfg cfg.maxNesting.toNat []
    (State.ofTokens (Token.scan source))
  unfold Parsed.ofSource
  rw [ofTokens_of_gives cfg hgives]
  rfl

theorem yields_of_errors (h : (Parsed.ofTokens ts cfg).errors = []) :
    ∃ ss s', Yields (iterate (programStep cfg (expression cfg cfg.maxNesting.toNat)) [])
      (State.ofTokens ts) ss s' := by
  obtain ⟨ss, s', hgives⟩ := exists_gives_program cfg cfg.maxNesting.toNat [] (State.ofTokens ts)
  rw [ofTokens_of_gives cfg hgives] at h
  exact ⟨ss, s', hgives, h⟩

/-- The first token of tokens without diagnostics is no semicolon. -/
theorem head_of_errors (h : (Parsed.ofTokens ts cfg).errors = []) :
    ∀ t ∈ ts.head?, t.kind ≠ .semicolon := by
  obtain ⟨ss, s', hyields⟩ := yields_of_errors cfg h
  have hcur : (State.ofTokens ts).cur.kind ≠ .semicolon := by
    refine yields_iterate_induction (P := fun _ s => s.cur.kind ≠ .semicolon) ?_ ?_ hyields
    · intro s hstop hsemicolon
      rcases yields_programStep.1 hstop with ⟨hk, -, -⟩ | ⟨-, _, _, -, ho, -⟩
      · rw [hk] at hsemicolon
        cases hsemicolon
      · cases ho
    · intro _ _ s s₁ hround _ hsemicolon
      rcases yields_programStep.1 hround with ⟨-, ho, -⟩ | ⟨-, n, s₂, hn, -, -⟩
      · cases ho
      · have hbound := bounding_of_gives cfg (gives_recovering_some.1 hn.1)
        rw [hsemicolon] at hbound
        cases hbound
  cases ts with
  | nil => simp
  | cons t ts =>
    rintro _ ⟨⟩
    exact hcur

theorem closesFrom_append_eof {z : Token} (hz : z.kind = .eof) {depth : Int}
    (h : closesFrom depth (ts ++ [z])) : closesFrom depth ts := by
  induction ts generalizing depth with
  | nil =>
    rw [List.nil_append, closesFrom_cons, hz] at h
    simpa [braceStep] using h.2
  | cons t ts ih =>
    rw [List.cons_append, closesFrom_cons] at h
    exact closesFrom_cons.2 ⟨h.1, ih h.2⟩

/-- **Without diagnostics, braces that are balanced are well nested.** -/
theorem wellNested_of_balanced {z : Token} (heof : ∀ t ∈ ts, t.kind ≠ .eof) (hz : z.kind = .eof)
    (herrors : (Parsed.ofTokens (ts ++ [z]) cfg).errors = [])
    (hbalanced : balanced (ts ++ [z])) : wellNested ts := by
  obtain ⟨ss, s', hyields⟩ := yields_of_errors cfg herrors
  have htally : tally (ts ++ [z]) = 0 := by
    have hcount := eq_of_beq hbalanced
    rw [tally_eq_count]
    omega
  refine closesFrom_append_eof hz ?_
  have htidy := tidy_ofTokens (ended_append heof (z := z))
  cases ts with
  | nil => simp [hz, braceStep]
  | cons t ts =>
    rw [List.cons_append, tally] at htally
    have hcloses := closesFrom_of_yields cfg hyields htidy (Int.le_refl _) htally
    rw [List.cons_append, closesFrom_cons, Int.zero_add]
    exact hcloses

/-- **What is parsed before the semicolon does not depend on what comes after.** -/
theorem ofTokens_split {first : List Token} (heof : ∀ t ∈ first, t.kind ≠ .eof)
    (hnest : wellNested first) (hlast : ∃ z ∈ first.getLast?, z.kind = .semicolon) :
    ∃ ss errors, ∀ second, second ≠ [] → (∀ t ∈ second.head?, t.kind ≠ .semicolon) →
      (Parsed.ofTokens (first ++ second) cfg).program =
          .program .start (ss ++ (Parsed.ofTokens second cfg).program.statements) ∧
        (Parsed.ofTokens (first ++ second) cfg).errors =
          errors ++ (Parsed.ofTokens second cfg).errors := by
  obtain ⟨ss, s', hfirst⟩ := exists_gives_program cfg cfg.maxNesting.toNat [] (State.ofTokens first)
  refine ⟨ss, s'.errors, fun second hsecond hnext => ?_⟩
  obtain ⟨ss₁, s₁, t₁, hfirst₁, hstart, hthere⟩ :=
    (seam_ofTokens heof hnest hlast).program cfg cfg.maxNesting.toNat hsecond hnext []
  cases hfirst.symm.trans hfirst₁
  obtain ⟨ss', s'', t'', hrest, hwhole, herrors⟩ :=
    iterate_programStep_before cfg cfg.maxNesting.toNat hstart.tracks ss []
  rw [List.append_nil] at hwhole
  rw [ofTokens_of_gives cfg hrest, ofTokens_of_gives cfg (hthere.trans hwhole)]
  exact ⟨rfl, herrors⟩

/-! ## Tokens and trees without their places -/

/-- Two trees that differ in places only. -/
def Unmoved (n n' : Node) : Prop := n'.unplaced = n.unplaced

theorem Unmoved.all {ns ns' : List Node} (h : Forall₂ Unmoved ns ns') :
    Node.unplacedAll ns' = Node.unplacedAll ns := by
  induction h with
  | nil => rfl
  | cons hn _ ih => rw [Node.unplacedAll, Node.unplacedAll, hn, ih]

theorem Unmoved.named {n n' : Node} (h : Named (fun t t' => t'.bare = t.bare) n n') :
    Unmoved n n' := by
  obtain ⟨ht, -⟩ := h
  exact congrArg (Node.identifier .unknown) (congrArg Prod.snd ht)

/-- Tokens that differ in places only are parsed to trees that differ in places only. -/
def placeless : Correspondence where
  token t t' := t'.bare = t.bare
  expression := Unmoved
  block := Unmoved
  statement := Unmoved
  kind ht := congrArg Prod.fst ht
  numeral ht _ := congrArg Prod.snd ht
  ended _ := rfl
  nowhere := rfl
  identifier ht hk := .named ⟨ht, hk⟩
  integer _ _ _ _ := rfl
  string ht _ := congrArg (Node.string .unknown) (congrArg Prod.snd ht)
  boolean _ _ := rfl
  unary {t t' e e'} ht _ he := by
    have htext : t'.text = t.text := congrArg Prod.snd ht
    rw [Unmoved, Node.unplaced, Node.unplaced, htext, he]
  binary {t t' l l' r r'} ht _ hl hr := by
    have htext : t'.text = t.text := congrArg Prod.snd ht
    rw [Unmoved, Node.unplaced, Node.unplaced, htext, hl, hr]
  conditional _ hc hb ho := by
    rw [Unmoved, Node.unplaced, Node.unplaced, hc, hb]
    cases ho with
    | none => rfl
    | some he => rw [Node.unplacedIn, Node.unplacedIn, he]
  function _ hns hb := by
    rw [Unmoved, Node.unplaced, Node.unplaced, Unmoved.all (hns.imp fun _ _ => .named), hb]
  call _ hf hes := by rw [Unmoved, Node.unplaced, Node.unplaced, hf, Unmoved.all hes]
  braced _ hss := by rw [Unmoved, Node.unplaced, Node.unplaced, Unmoved.all hss]
  binding _ hn he := by rw [Unmoved, Node.unplaced, Node.unplaced, Unmoved.named hn, he]
  returning _ he := by rw [Unmoved, Node.unplaced, Node.unplaced, he]
  evaluated _ he := by rw [Unmoved, Node.unplaced, Node.unplaced, he]

/-! ## Two texts -/

/-- The tokens of two texts, one below the other, without their places. -/
theorem map_bare_scan_append_line {a b : String} {us : List Token}
    (hus : us.map Token.bare = Token.lexemes a.toList)
    (hlast : ∃ z ∈ us.getLast?, z.kind = .semicolon) :
    (Token.scan (a ++ "\n" ++ b)).map Token.bare = (us ++ Token.scan b).map Token.bare := by
  have htext : (a ++ "\n" ++ b).toList = a.toList ++ '\n' :: b.toList := by simp
  have hclosed : ∀ x ∈ (Token.lexemes a.toList).getLast?, x.1 ≠ .illegal := by
    intro x hx
    obtain ⟨z, hz, hkind⟩ := hlast
    rw [← hus, List.getLast?_map, Option.mem_def.1 hz] at hx
    cases hx
    show z.kind ≠ .illegal
    rw [hkind]
    decide
  rw [Token.map_bare_scan, htext, Token.lexemes_append_line hclosed, List.map_append, hus,
    Token.map_bare_scan, List.append_assoc]

/-- **Two texts without diagnostics, one below the other.** If the first closes all its braces and
ends on a semicolon, then the two together have no diagnostics, and their statements are those of
the first and then those of the second, but for their places. -/
theorem ofSource_append_line {a b : String} (ha : (Parsed.ofSource a cfg).errors = [])
    (hb : (Parsed.ofSource b cfg).errors = []) (hbraces : balanced (Token.scan a))
    (hlast : (Token.scan a).dropLast.getLast?.map Token.kind = some .semicolon) :
    (Parsed.ofSource (a ++ "\n" ++ b) cfg).errors = [] ∧
      (Parsed.ofSource (a ++ "\n" ++ b) cfg).program.unplaced =
        (Node.program .start ((Parsed.ofSource a cfg).program.statements ++
          (Parsed.ofSource b cfg).program.statements)).unplaced := by
  obtain ⟨us, z, hscan, hus, hz, heof⟩ := Token.scan_eq a
  unfold Parsed.ofSource at ha hb ⊢
  rw [hscan] at ha hbraces hlast
  rw [List.dropLast_concat] at hlast
  obtain ⟨w, hw, hkind⟩ := Option.map_eq_some_iff.1 hlast
  have hnest := wellNested_of_balanced cfg heof hz ha hbraces
  obtain ⟨ss, errors, hsplit⟩ := ofTokens_split cfg heof hnest ⟨w, hw, hkind⟩
  -- with nothing but the end of the text behind it, the first side is the first text
  have hend : Parsed.ofTokens [z] cfg = ⟨.program .start [], [], []⟩ := ofTokens_of_end cfg hz
  have hza : ∀ t ∈ [z].head?, t.kind ≠ .semicolon := by
    rintro _ ⟨⟩
    rw [hz]
    decide
  obtain ⟨hprogram, herrors⟩ := hsplit [z] (List.cons_ne_nil z []) hza
  rw [hend, ha, List.append_nil] at herrors
  have hfirst : (Parsed.ofTokens (us ++ [z]) cfg).program.statements = ss := by
    rw [hprogram, hend]
    exact List.append_nil ss
  -- with the second text behind it, both are there
  have hne : Token.scan b ≠ [] := by
    obtain ⟨vs, w, hvs, -⟩ := Token.scan_eq b
    simp [hvs]
  obtain ⟨hprogram', herrors'⟩ := hsplit (Token.scan b) hne (head_of_errors cfg hb)
  rw [← herrors, hb] at herrors'
  -- the two texts together have the same tokens in other places
  have hbare := map_bare_scan_append_line (b := b) hus ⟨w, hw, hkind⟩
  have htokens : Forall₂ placeless.token (us ++ Token.scan b) (Token.scan (a ++ "\n" ++ b)) := by
    have heq := List.forall₂_eq_eq_eq.symm ▸ hbare.symm
    rw [List.forall₂_map_left_iff, List.forall₂_map_right_iff] at heq
    exact heq.imp fun _ _ => Eq.symm
  obtain ⟨ss₁, ss₂, hss₁, hss₂, hsame, hcomplaints⟩ := placeless.ofTokens cfg htokens
  rw [herrors', List.append_nil, List.map_nil, List.map_eq_nil_iff] at hcomplaints
  refine ⟨hcomplaints, ?_⟩
  rw [hss₁] at hprogram'
  rw [hss₂, hscan, hfirst, ← (Node.program.inj hprogram').2, Node.unplaced, Node.unplaced,
    Unmoved.all hsame]

end Scriptlet.Parser
