import Scriptlet.Proofs.Parser.Depth

/-!
# Blocks and the braces that match theirs

In tokens whose braces are well nested every opening brace has one that matches it. A block does
not run past that brace, whatever its statements are, and ends on it unless one of its statements,
or one of a block inside them, starts at a brace of its own.

* `closesFrom`, `wellNested`: braces that are never closed before they are opened, and all are.
* `block_ends_on_match`: where a block ends.
* `block_leaves_early`: a block that ends on a brace inside it.
-/

namespace Scriptlet.Parser

open Syntax (Node)
open Token (Kind)
open State (braceStep)

variable {s s' : State} {depth : Int} {ts inner after : List Token} {close : Token}

/-! ## Well-nested braces -/

/-- With `depth` braces open before them, the tokens close no brace that is not open, and leave
none open at their end. -/
def closesFrom : Int → List Token → Bool
  | depth, [] => depth == 0
  | depth, t :: ts =>
    0 ≤ depth + braceStep t.kind && closesFrom (depth + braceStep t.kind) ts

/-- The braces of the tokens are well nested. -/
def wellNested (ts : List Token) : Bool := closesFrom 0 ts

@[simp] theorem closesFrom_nil : closesFrom depth [] ↔ depth = 0 := by
  simp [closesFrom]

@[simp] theorem closesFrom_cons {t : Token} :
    closesFrom depth (t :: ts) ↔
      0 ≤ depth + braceStep t.kind ∧ closesFrom (depth + braceStep t.kind) ts := by
  simp [closesFrom]

/-- Where more braces are open than the tokens begin with, one of the tokens closes the innermost
of them. -/
theorem exists_match_of_closesFrom {more : Int} (hmore : 0 < more) :
    ∀ {depth : Int} {ts : List Token}, 0 ≤ depth → closesFrom (depth + more) ts →
      ∃ inner close after, ts = inner ++ close :: after ∧ closesFrom depth inner ∧
        close.kind = .rbrace := by
  intro depth ts
  induction ts generalizing depth with
  | nil =>
    intro hd h
    rw [closesFrom_nil] at h
    omega
  | cons t ts ih =>
    intro hd h
    rw [closesFrom_cons] at h
    by_cases hneg : depth + braceStep t.kind < 0
    · have hk : t.kind = .rbrace := by
        refine Decidable.byContradiction fun hk => ?_
        have := braceStep_nonneg hk
        omega
      have hzero : depth = 0 := by
        rw [hk] at hneg
        simp only [braceStep] at hneg
        omega
      exact ⟨[], t, ts, rfl, closesFrom_nil.2 hzero, hk⟩
    · have hback : depth + more + braceStep t.kind = depth + braceStep t.kind + more := by omega
      rw [hback] at h
      obtain ⟨inner, close, after, rfl, hin, hk⟩ := ih (by omega) h.2
      exact ⟨t :: inner, close, after, rfl, closesFrom_cons.2 ⟨by omega, hin⟩, hk⟩

/-- The braces from a state on are well nested, with those open that are open there. -/
structure State.Nested (s : State) : Prop where
  nonneg : 0 ≤ s.braceDepth
  opened : braceStep s.cur.kind ≤ s.braceDepth
  closes : closesFrom s.braceDepth s.rest

theorem State.Nested.braceDepth_pos (h : s.Nested) (hopen : s.cur.kind = .lbrace) :
    0 < s.braceDepth := by
  have hopened := h.opened
  rw [hopen] at hopened
  simp only [braceStep] at hopened
  omega

/-- An opening brace has one ahead that matches it. -/
theorem State.Nested.exists_match (h : s.Nested) (hopen : s.cur.kind = .lbrace) :
    ∃ inner close after, s.rest = inner ++ close :: after ∧ wellNested inner ∧
      close.kind = .rbrace := by
  have hcloses := h.closes
  rw [← Int.zero_add s.braceDepth] at hcloses
  exact exists_match_of_closesFrom (h.braceDepth_pos hopen) (Int.le_refl 0) hcloses

theorem nested_ofTokens (h : wellNested ts) : (State.ofTokens ts).Nested := by
  cases ts with
  | nil => exact ⟨Int.le_refl _, Int.le_refl _, rfl⟩
  | cons t ts =>
    have := closesFrom_cons.1 h
    rw [Int.zero_add] at this
    exact ⟨this.1, Int.le_refl _, this.2⟩

theorem State.Nested.advance (h : s.Nested) : s.advance.Nested := by
  obtain ⟨hd, -, hc⟩ := h
  have hopened : braceStep s.advance.cur.kind ≤ s.advance.braceDepth := by
    have hcur : s.advance.cur = s.peek := rfl
    rw [braceDepth_advance, hcur]
    omega
  cases hr : s.rest with
  | nil =>
    have hstep : s.advance.braceDepth = s.braceDepth := by
      rw [braceDepth_advance, State.peek, hr]
      exact Int.add_zero _
    have hrest : s.advance.rest = [] := by simp [State.advance, hr]
    rw [hr] at hc
    exact ⟨by omega, hopened, by rwa [hrest, hstep]⟩
  | cons t ts =>
    have hstep : s.advance.braceDepth = s.braceDepth + braceStep t.kind := by
      simp [State.peek, hr]
    have hrest : s.advance.rest = ts := by simp [State.advance, hr]
    rw [hr, closesFrom_cons] at hc
    exact ⟨by omega, hopened, by rw [hstep, hrest]; exact hc.2⟩

/-- Every state that a parse comes to has its braces well nested, if the tokens have. -/
theorem Moves.nested (hm : Moves s s') (h : s.Nested) : s'.Nested := by
  induction hm with
  | refl => exact h
  | advance _ ih => exact ih.advance
  | report _ _ ih => exact ⟨ih.nonneg, ih.opened, ih.closes⟩
  | count _ _ _ _ ih => exact ⟨ih.nonneg, ih.opened, ih.closes⟩

/-! ## Inside a pair of braces -/

section

variable (hrest : s.rest = inner ++ close :: after) (hnest : wellNested inner)
  (hclose : close.kind = .rbrace)

include hrest hnest hclose

/-- What is above the depth of an opening brace is before the brace that matches it. -/
theorem Above.before_match (h : Above s.braceDepth s s') :
    ∃ r, s'.rest = r ++ close :: after ∧ closesFrom (s'.braceDepth - s.braceDepth) r := by
  induction h with
  | refl =>
    refine ⟨inner, hrest, ?_⟩
    rwa [Int.sub_self]
  | @advance s' _ hle ih =>
    obtain ⟨r, hr, hc⟩ := ih
    cases r with
    | nil =>
      -- the matching brace is next, and going over it falls below
      rw [closesFrom_nil] at hc
      have hpeek : s'.peek = close := by simp [State.peek, hr]
      rw [braceDepth_advance, hpeek, hclose] at hle
      simp only [braceStep] at hle
      omega
    | cons t r =>
      have hpeek : s'.peek = t := by simp [State.peek, hr]
      rw [closesFrom_cons] at hc
      refine ⟨r, by simp [State.advance, hr], ?_⟩
      have hback : s'.advance.braceDepth - s.braceDepth =
          s'.braceDepth - s.braceDepth + braceStep t.kind := by
        rw [braceDepth_advance, hpeek]
        omega
      rw [hback]
      exact hc.2
  | report _ _ ih => exact ih
  | count _ _ _ _ ih => exact ih

/-- What is within the depth of an opening brace is before the brace that matches it, or on it. -/
theorem Within.before_or_on_match (h : Within s.braceDepth s s') :
    Above s.braceDepth s s' ∨ (s'.cur = close ∧ s'.rest = after) := by
  induction h with
  | above h => exact .inl h
  | @closing s' h hk =>
    obtain ⟨r, hr, hc⟩ := h.before_match hrest hnest hclose
    cases r with
    | nil =>
      right
      simp [State.advance, State.peek, hr]
    | cons t r =>
      have hpeek : s'.peek = t := by simp [State.peek, hr]
      rw [closesFrom_cons, ← hpeek] at hc
      refine .inl (h.advance ?_)
      rw [braceDepth_advance]
      omega
  | report d _ ih => exact ih.imp (·.report d) id
  | count n l t _ ih => exact ih.imp (·.count n l t) id

end

/-! ## Where a block ends -/

/-- **A block never runs past the brace that matches its own**, whatever statements inside it fail.
It ends on that brace. Only if it begins a statement at an opening brace, or a block inside one of
its statements does, may it end on a closing brace before that. -/
theorem block_ends_on_match (cfg : Config) (budget : Nat) {tokens : List Token}
    (heof : ∀ t ∈ tokens, t.kind ≠ .eof) (hnest : wellNested tokens)
    (hcome : Moves (State.ofTokens tokens) s) (hopen : s.cur.kind = .lbrace) :
    ∃ inner close after, s.rest = inner ++ close :: after ∧ wellNested inner ∧
      close.kind = .rbrace ∧
      ∃ n s', Gives (block cfg (expression cfg budget)) s n s' ∧ s'.cur.kind = .rbrace ∧
        ((s'.cur = close ∧ s'.rest = after) ∨
          (∃ r, s'.rest = r ++ close :: after) ∧ Misreads cfg budget s s') := by
  have hnested := hcome.nested (nested_ofTokens hnest)
  have htidy := hcome.tidy (tidy_ofTokens fun t ht => heof t (List.dropLast_subset _ ht))
  obtain ⟨inner, close, after, hrest, hin, hclose⟩ := hnested.exists_match hopen
  refine ⟨inner, close, after, hrest, hin, hclose, ?_⟩
  obtain ⟨n, s', hrun, hbetween, hend⟩ := block_run (level_expression cfg budget) s
  refine ⟨n, s', hrun, ?_⟩
  rcases hbetween.within.before_or_on_match hrest hin hclose with habove | ⟨hcur, hafter⟩
  · obtain ⟨r, hr, -⟩ := habove.before_match hrest hin hclose
    have hne : s'.rest ≠ [] := by simp [hr]
    have hcur : s'.cur.kind = .rbrace := hend.resolve_right fun he =>
      hne (rest_eq_nil_of_cur (habove.moves.tidy htidy) he)
    refine ⟨hcur, .inr ⟨⟨r, hr⟩, ?_⟩⟩
    -- a closing brace at the depth of the block would be below what is above it
    rcases hbetween.settled htidy with hd | hnil | hmis
    · have hle := habove.le_braceDepth (Int.le_refl _)
      rw [hcur] at hd
      simp only [braceStep] at hd
      omega
    · exact absurd hnil hne
    · exact hmis
  · exact ⟨by rw [hcur, hclose], .inl ⟨hcur, hafter⟩⟩

/-- The tokens of `fn() { let 1; if ( } x`, both statements in the block malformed. -/
def faultyBlock : List Token :=
  [⟨.function, "fn", ⟨1, 1⟩⟩, ⟨.lparen, "(", ⟨1, 3⟩⟩, ⟨.rparen, ")", ⟨1, 4⟩⟩,
    ⟨.lbrace, "\x7b", ⟨1, 6⟩⟩, ⟨.letKey, "let", ⟨1, 8⟩⟩, ⟨.int, "1", ⟨1, 12⟩⟩,
    ⟨.semicolon, ";", ⟨1, 13⟩⟩, ⟨.ifKey, "if", ⟨1, 15⟩⟩, ⟨.lparen, "(", ⟨1, 18⟩⟩,
    ⟨.rbrace, "\x7d", ⟨1, 20⟩⟩, ⟨.ident, "x", ⟨1, 22⟩⟩]

theorem block_faultyBlock :
    ∃ inner close after,
      (State.ofTokens faultyBlock).advance.advance.advance.rest = inner ++ close :: after ∧
      wellNested inner ∧ close.kind = .rbrace ∧
      ∃ n s', Gives (block {} (expression {} 500))
          (State.ofTokens faultyBlock).advance.advance.advance n s' ∧
        s'.cur = close ∧ s'.rest = after := by
  have heof : ∀ t ∈ faultyBlock, t.kind ≠ .eof := by decide
  obtain ⟨inner, close, after, hrest, hin, hclose, n, s', hrun, -, hend⟩ :=
    block_ends_on_match {} 500 heof (by decide) Moves.refl.advance.advance.advance rfl
  refine ⟨inner, close, after, hrest, hin, hclose, n, s', hrun, ?_⟩
  -- there is no opening brace inside the block that a statement could start at
  have hno : ∀ t ∈ (State.ofTokens faultyBlock).advance.advance.advance.rest,
      t.kind ≠ .lbrace := by decide
  refine hend.resolve_right fun ⟨_, hmis⟩ => ?_
  obtain ⟨t, ht, hk⟩ := hmis.exists_lbrace
  exact hno t ht hk

/-- The tokens of `fn() { { a }; b }`. -/
def braceInBlock : List Token :=
  [⟨.function, "fn", ⟨1, 1⟩⟩, ⟨.lparen, "(", ⟨1, 3⟩⟩, ⟨.rparen, ")", ⟨1, 4⟩⟩,
    ⟨.lbrace, "\x7b", ⟨1, 6⟩⟩, ⟨.lbrace, "\x7b", ⟨1, 8⟩⟩, ⟨.ident, "a", ⟨1, 10⟩⟩,
    ⟨.rbrace, "\x7d", ⟨1, 12⟩⟩, ⟨.semicolon, ";", ⟨1, 13⟩⟩, ⟨.ident, "b", ⟨1, 15⟩⟩,
    ⟨.rbrace, "\x7d", ⟨1, 17⟩⟩]

/-- **A statement that starts at a brace makes its block end too early.** The depth of the
statement is taken to be that inside its brace, so that the brace which closes it passes for the
end of the block: what follows leaks out, and the end of the block is left over. -/
theorem block_leaves_early :
    wellNested braceInBlock ∧
      (block {} (expression {} 500)
        (State.ofTokens braceInBlock).advance.advance.advance).2.rest.map (·.kind) =
          [.semicolon, .ident, .rbrace] ∧
      (Parsed.ofTokens braceInBlock {}).errors =
        [⟨.noExpression .lbrace, ⟨1, 8⟩⟩, ⟨.noExpression .rbrace, ⟨1, 17⟩⟩] := by
  exact ⟨by decide, by decide +kernel, by decide +kernel⟩

end Scriptlet.Parser
