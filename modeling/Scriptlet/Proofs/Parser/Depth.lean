import Scriptlet.Proofs.Parser.Composition
import Scriptlet.Proofs.Parser.Exact

/-!
# How deep a parse stands in braces

An expression ends at a brace depth that is not below the one it starts at, and an attempt that
fails is at most on the brace that closes what is around it. So a block ends inside its braces or
on the one that closes it, whatever its statements are.

* `Above`: the states ahead that are reached without falling below a depth.
* `Within`: those, and the closing braces right below them.
* `Level`: the property of parsers; all parsers of expressions have it.
* `block_run`: what a block can come to.
-/

namespace Scriptlet.Parser

open Syntax (Node)
open Token (Kind)
open State (braceStep)

variable {cfg : Config} {s s₁ s' : State} {depth depth' : Int}

theorem braceStep_nonneg {kind : Kind} (h : kind ≠ .rbrace) : 0 ≤ braceStep kind := by
  cases kind <;> simp_all [braceStep]

theorem braceStep_of_starter? {kind : Kind} (h : starter? kind ≠ none) : braceStep kind = 0 := by
  cases kind <;> simp_all [braceStep, starter?]

theorem braceStep_of_bounding {kind : Kind} (h : bounding kind = false) : braceStep kind = 0 := by
  cases kind <;> simp_all [braceStep, bounding]

@[simp] theorem braceDepth_advance (s : State) :
    s.advance.braceDepth = s.braceDepth + braceStep s.peek.kind := rfl

/-! ## Moving above a depth -/

/-- The states that a parse can come to from `s` with no token on the way below the given brace
depth. -/
inductive Above (depth : Int) (s : State) : State → Prop
  | refl : Above depth s s
  | advance {s' : State} :
      Above depth s s' → depth ≤ s'.advance.braceDepth → Above depth s s'.advance
  | report {s' : State} (d : Diagnostic) : Above depth s s' → Above depth s (s'.report d)
  | count {s' : State} (nesting traceLevel : Nat) (trace : List TraceLine) :
      Above depth s s' → Above depth s { s' with nesting, traceLevel, trace }

/-- The states that a parse can come to from `s` above the given brace depth, or by closing one
brace that may take it below. -/
inductive Within (depth : Int) (s : State) : State → Prop
  | above {s' : State} : Above depth s s' → Within depth s s'
  | closing {s' : State} :
      Above depth s s' → s'.peek.kind = .rbrace → Within depth s s'.advance
  | report {s' : State} (d : Diagnostic) : Within depth s s' → Within depth s (s'.report d)
  | count {s' : State} (nesting traceLevel : Nat) (trace : List TraceLine) :
      Within depth s s' → Within depth s { s' with nesting, traceLevel, trace }

namespace Above

theorem moves (h : Above depth s s') : Moves s s' := by
  induction h with
  | refl => exact .refl
  | advance _ _ ih => exact ih.advance
  | report d _ ih => exact ih.report d
  | count n l t _ ih => exact ih.count n l t

theorem trans (h : Above depth s s₁) (h' : Above depth s₁ s') : Above depth s s' := by
  induction h' with
  | refl => exact h
  | advance _ hle ih => exact ih.advance hle
  | report d _ ih => exact ih.report d
  | count n l t _ ih => exact ih.count n l t

theorem mono (hle : depth ≤ depth') (h : Above depth' s s') : Above depth s s' := by
  induction h with
  | refl => exact .refl
  | advance _ h ih => exact ih.advance (Int.le_trans hle h)
  | report d _ ih => exact ih.report d
  | count n l t _ ih => exact ih.count n l t

theorem le_braceDepth (h : Above depth s s') (hs : depth ≤ s.braceDepth) :
    depth ≤ s'.braceDepth := by
  induction h with
  | refl => exact hs
  | advance _ h _ => exact h
  | report _ _ ih => exact ih
  | count _ _ _ _ ih => exact ih

/-- A move over a token that closes no brace stays above; any other closes one. -/
theorem advance_within (h : Above depth s s') (hs : depth ≤ s.braceDepth) :
    Within depth s s'.advance := by
  by_cases hk : s'.peek.kind = .rbrace
  · exact .closing h hk
  · refine .above (h.advance ?_)
    have hd := h.le_braceDepth hs
    have hstep := braceStep_nonneg hk
    rw [braceDepth_advance]
    omega

end Above

namespace Within

theorem moves (h : Within depth s s') : Moves s s' := by
  induction h with
  | above h => exact h.moves
  | closing h _ => exact h.moves.advance
  | report d _ ih => exact ih.report d
  | count n l t _ ih => exact ih.count n l t

/-- Where a parse is not above, it is on the brace right below. -/
theorem above_or (h : Within depth s s') (hs : depth ≤ s.braceDepth) :
    Above depth s s' ∨ (s'.braceDepth = depth - 1 ∧ s'.cur.kind = .rbrace) := by
  induction h with
  | above h => exact .inl h
  | @closing s' h hk =>
    have hd := h.le_braceDepth hs
    by_cases hle : depth ≤ s'.advance.braceDepth
    · exact .inl (h.advance hle)
    · refine .inr ⟨?_, hk⟩
      rw [braceDepth_advance, hk] at hle ⊢
      simp only [braceStep] at hle ⊢
      omega
  | report d _ ih => exact ih.imp (·.report d) id
  | count n l t _ ih => exact ih.imp (·.count n l t) id

/-- One brace deeper, a parse that is within is above. -/
theorem above_pred (h : Within depth s s') (hs : depth ≤ s.braceDepth) :
    Above (depth - 1) s s' := by
  induction h with
  | above h => exact h.mono (by omega)
  | @closing s' h hk =>
    have hd := h.le_braceDepth hs
    refine (h.mono (by omega)).advance ?_
    rw [braceDepth_advance, hk]
    simp only [braceStep]
    omega
  | report d _ ih => exact ih.report d
  | count n l t _ ih => exact ih.count n l t

theorem after (h : Above depth s s₁) (hle : depth ≤ depth') (h' : Within depth' s₁ s') :
    Within depth s s' := by
  induction h' with
  | above h' => exact .above (h.trans (h'.mono hle))
  | closing h' hk => exact .closing (h.trans (h'.mono hle)) hk
  | report d _ ih => exact ih.report d
  | count n l t _ ih => exact ih.count n l t

end Within

/-! ## Tokens that a parse comes to -/

theorem State.rest_eq_cons (h : s.peek.kind ≠ .eof) :
    s.rest = s.advance.cur :: s.advance.rest := by
  cases hr : s.rest with
  | nil => simp [State.peek, hr, Token.eofAt] at h
  | cons t ts => simp [State.advance, State.peek, hr]

/-- A token that a parse comes to is one that was ahead. -/
theorem Moves.cur_cons_rest_suffix (h : Moves s.advance s') (hk : s'.cur.kind ≠ .eof) :
    s'.cur :: s'.rest <:+ s.rest := by
  induction h with
  | refl => exact ⟨[], (s.rest_eq_cons hk).symm⟩
  | @advance s' h _ =>
    rw [← s'.rest_eq_cons hk]
    exact h.rest_suffix.trans (List.tail_suffix s.rest)
  | report _ _ ih => exact ih hk
  | count _ _ _ _ ih => exact ih hk

/-! ## Statements that start at an opening brace -/

section

variable {budget : Nat} {e : Nat → Parser Node} {t : State}

/-- The states in which the block that opens in `s` is about to begin a statement, or to end: right
behind its brace, and after each of its rounds. -/
inductive Rounds (cfg : Config) (e : Nat → Parser Node) (s : State) : State → Prop
  | first (nesting traceLevel : Nat) (trace : List TraceLine) :
      Rounds cfg e s { s.advance with nesting, traceLevel, trace }
  | next {t t' : State} {ss ss' : List Node} : Rounds cfg e s t →
      blockStep cfg e s.braceDepth ss t = (.ok (some ss'), t') → Rounds cfg e s t'

theorem Rounds.moves [∀ power, Moving (e power)] (h : Rounds cfg e s t) : Moves s.advance t := by
  induction h with
  | first n l u => exact Moves.refl.count n l u
  | @next t _ ss _ _ hstep ih =>
    have hmoves := Moving.moves (p := blockStep cfg e s.braceDepth ss) t
    rw [hstep] at hmoves
    exact ih.trans hmoves

theorem Rounds.counted {n l : Nat} {u : List TraceLine}
    (h : Rounds cfg e { s with nesting := n, traceLevel := l, trace := u } t) :
    Rounds cfg e s t := by
  induction h with
  | first n' l' u' => exact .first n' l' u'
  | next _ hstep ih => exact ih.next hstep

/-- From `s` on a parse comes to a block, which opens in `b`. -/
structure Embraces (s b : State) : Prop where
  moves : Moves s b
  opening : b.cur.kind = .lbrace
  deeper : b.braceDepth = s.braceDepth + 1

/-- By `s'` the block that opens in `s` has begun a statement at an opening brace, or a block inside
one of its statements has. Such a statement fails on the spot: it is reported that no expression
starts at the brace, or none that would not be too deep. -/
inductive Misreads (cfg : Config) : Nat → State → State → Prop
  | own {budget : Nat} {s t s' : State} {d : Diagnostic} :
      Rounds cfg (expression cfg budget) s t → t.cur.kind = .lbrace → d.pos = t.cur.pos →
      (d.complaint = .noExpression .lbrace ∨ ∃ limit, d.complaint = .tooDeep limit) →
      t.errors ++ [d] <+: s'.errors → Moves t s' → Misreads cfg budget s s'
  | inner {budget budget' : Nat} {s t b b' s' : State} :
      Rounds cfg (expression cfg budget) s t → Embraces t b → Misreads cfg budget' b b' →
      Moves b' (bareStatement cfg (expression cfg budget) t).2 →
      Moves (bareStatement cfg (expression cfg budget) t).2 s' → Misreads cfg budget s s'

theorem Misreads.after (h : Misreads cfg budget s s₁) (hm : Moves s₁ s') :
    Misreads cfg budget s s' := by
  cases h with
  | own hround hk hpos hc herrors hmoves =>
    exact .own hround hk hpos hc (herrors.trans hm.errors_grow) (hmoves.trans hm)
  | inner hround hblock hmis hin hout => exact .inner hround hblock hmis hin (hout.trans hm)

theorem Misreads.counted {n l : Nat} {u : List TraceLine}
    (h : Misreads cfg budget { s with nesting := n, traceLevel := l, trace := u } s') :
    Misreads cfg budget s s' := by
  cases h with
  | own hround hk hpos hc herrors hmoves => exact .own hround.counted hk hpos hc herrors hmoves
  | inner hround hblock hmis hin hout => exact .inner hround.counted hblock hmis hin hout

/-- Where a block begins a statement at an opening brace, there is one ahead of it. -/
theorem Misreads.exists_lbrace (h : Misreads cfg budget s s') :
    ∃ t ∈ s.rest, t.kind = .lbrace := by
  induction h with
  | @own _ s t _ _ hround hk =>
    have hne : t.cur.kind ≠ .eof := by rw [hk]; decide
    have hsuffix := hround.moves.cur_cons_rest_suffix hne
    exact ⟨t.cur, hsuffix.subset List.mem_cons_self, hk⟩
  | inner hround hblock _ _ _ ih =>
    obtain ⟨brace, hmem, hk⟩ := ih
    have hmoves := (Moves.refl.advance.trans hround.moves).trans hblock.moves
    exact ⟨brace, hmoves.rest_suffix.subset hmem, hk⟩

/-- Tokens that have run out are not there later, and what was misread stays so. -/
theorem Moves.misreads_later (hm : Moves t s') (h : t.rest = [] ∨ Misreads cfg budget s t) :
    s'.rest = [] ∨ Misreads cfg budget s s' := by
  rcases h with h | h
  · have hrest := hm.rest_suffix
    rw [h, List.suffix_nil] at hrest
    exact .inl hrest
  · exact .inr (h.after hm)

/-- Between `s` and `s'` a block is opened that begins a statement at an opening brace. -/
def Harbours (cfg : Config) (s s' : State) : Prop :=
  ∃ budget b b', Embraces s b ∧ Misreads cfg budget b b' ∧ Moves b' s'

theorem Harbours.before (h : Harbours cfg s₁ s') (hm : Moves s s₁)
    (hd : s₁.braceDepth = s.braceDepth) : Harbours cfg s s' := by
  obtain ⟨budget, b, b', hblock, hmis, hmoves⟩ := h
  exact ⟨budget, b, b', ⟨hm.trans hblock.moves, hblock.opening, hd ▸ hblock.deeper⟩, hmis, hmoves⟩

theorem Harbours.after (h : Harbours cfg s s₁) (hm : Moves s₁ s') : Harbours cfg s s' := by
  obtain ⟨budget, b, b', hblock, hmis, hmoves⟩ := h
  exact ⟨budget, b, b', hblock, hmis, hmoves.trans hm⟩

end

/-! ## Parsers that keep their level -/

/-- A parse from `s` that comes to `s'` is back at its brace depth, unless the tokens have run out
or a block in between begins a statement at an opening brace. -/
def Settles (cfg : Config) (s s' : State) : Prop :=
  s'.braceDepth = s.braceDepth ∨ s'.rest = [] ∨ Harbours cfg s s'

theorem Settles.trans (h : Settles cfg s s₁) (h' : Settles cfg s₁ s') (hm : Moves s s₁)
    (hm' : Moves s₁ s') : Settles cfg s s' := by
  rcases h with hd | hnil | hblock
  · rcases h' with hd' | hnil' | hblock'
    · exact .inl (hd'.trans hd)
    · exact .inr (.inl hnil')
    · exact .inr (.inr (hblock'.before hm hd))
  · have hrest := hm'.rest_suffix
    rw [hnil, List.suffix_nil] at hrest
    exact .inr (.inl hrest)
  · exact .inr (.inr (hblock.after hm'))

/-- What a parser that keeps its level can come to from `s`. -/
def Levels (cfg : Config) {α : Type} (s : State) : Except Diagnostic α × State → Prop
  | (.ok _, s') => Above s.braceDepth s s' ∧ (s.Tidy → Settles cfg s s')
  | (.error _, s') => Within s.braceDepth s s'

/-- A parser that keeps its level: what it gives ends no deeper in closing braces than it starts,
and where it fails at most one brace was closed. -/
def Level (cfg : Config) (α : Type) (p : Parser α) : Prop := ∀ s, Levels cfg s (p s)

variable {α β : Type}

theorem levels_refl (s : State) (a : α) : Levels cfg s (.ok a, s) := ⟨.refl, fun _ => .inl rfl⟩

/-- A move over a token that is no brace keeps the level. -/
theorem levels_advance (a : α) (h : braceStep s.peek.kind = 0) :
    Levels cfg s (.ok a, s.advance) := by
  have hstep : s.advance.braceDepth = s.braceDepth := by
    rw [braceDepth_advance, h, Int.add_zero]
  exact ⟨Above.refl.advance (by omega), fun _ => .inl hstep⟩

theorem Levels.trans {a : α} {r : Except Diagnostic β × State} (h : Levels cfg s (.ok a, s₁))
    (h' : Levels cfg s₁ r) : Levels cfg s r := by
  obtain ⟨habove, hsettles⟩ := h
  have hle := habove.le_braceDepth (Int.le_refl _)
  rcases r with ⟨d | b, s'⟩
  · exact Within.after habove hle h'
  · obtain ⟨habove', hsettles'⟩ := h'
    refine ⟨habove.trans (habove'.mono hle), fun hs => ?_⟩
    exact (hsettles hs).trans (hsettles' (habove.moves.tidy hs)) habove.moves habove'.moves

theorem Level.bind {p : Parser α} {f : α → Parser β} (hp : Level cfg α p)
    (hf : ∀ a, Level cfg β (f a)) : Level cfg β (p >>= f) := by
  intro s
  have h := hp s
  rw [bind_run]
  generalize p s = r at h
  rcases r with ⟨d | a, s₁⟩
  · exact h
  · exact h.trans (hf a s₁)

/-- What is counted does not bear on braces. -/
theorem Level.counted {q p : Parser α} (hq : Counts q p) (hp : Level cfg α p) : Level cfg α q := by
  intro s
  obtain ⟨n, l, t, n', l', t', hrun⟩ := hq s
  have h := hp { s with nesting := n, traceLevel := l, trace := t }
  rw [hrun]
  have hin : Above s.braceDepth s { s with nesting := n, traceLevel := l, trace := t } :=
    Above.refl.count n l t
  generalize p { s with nesting := n, traceLevel := l, trace := t } = r at h
  rcases r with ⟨d | a, s₁⟩
  · exact (Within.after hin (Int.le_refl _) h).count n' l' t'
  · refine ⟨(hin.trans h.1).count n' l' t', fun hs => (h.2 hs).imp id (.imp id fun hblock => ?_)⟩
    exact (hblock.before hin.moves rfl).after (Moves.refl.count n' l' t')

theorem Level.iterate {step : α → Parser (Option α)} [Ending step]
    (hstep : ∀ a, Level cfg (Option α) (step a)) (a : α) : Level cfg α (iterate step a) := by
  intro s
  refine iterate_induction (P := fun _ => Levels cfg) ?_ ?_ ?_ a s
  · intro a s s' h
    have := hstep a s
    rw [h] at this
    exact this
  · intro a s d s' h
    have := hstep a s
    rw [h] at this
    exact this
  · intro a a₁ s s₁ r h hr
    have := hstep a s
    rw [h] at this
    exact this.trans hr

theorem level_expect {kind : Kind} (hk : bounding kind = false) : Level cfg Unit (expect kind) := by
  intro s
  by_cases h : s.peek.kind = kind
  · rw [expect_run_of_peek h]
    exact levels_advance () (by rw [h, braceStep_of_bounding hk])
  · rw [expect_run_of_not_peek h]
    exact .above .refl

/-- An operand starts at a token that no brace is, or fails right there. -/
theorem level_operand {e : Parser Node} (hr : Refuses e) (he : Level cfg Node e) :
    Level cfg Node (advance >>= fun _ => e) := by
  intro s
  show Levels cfg s (e s.advance)
  by_cases hk : starter? s.peek.kind = none
  · obtain ⟨c, -, hfail⟩ := hr
    obtain ⟨n, l, t, hrun⟩ := hfail s.advance hk
    rw [hrun]
    exact (Above.refl.advance_within (Int.le_refl _)).count n l t
  · exact (levels_advance () (braceStep_of_starter? hk)).trans (he s.advance)

/-! ## Statements -/

theorem level_skipSemicolons : Level cfg Unit (modify State.skipSemicolons) := by
  intro s
  show Levels cfg s (.ok (), s.skipSemicolons)
  fun_induction State.skipSemicolons s with
  | case1 s h ih => exact (levels_advance () (by rw [h]; rfl)).trans ih
  | case2 s _ => exact levels_refl s ()

section

variable (cfg) {e : Nat → Parser Node} (hr : ∀ power, Refuses (e power))
  (he : ∀ power, Level cfg Node (e power))

include he

theorem level_expressionStatement : Level cfg Node (expressionStatement cfg e) := by
  refine Level.counted (counts_traced cfg _ _) ?_
  refine Level.bind (fun s => levels_refl s _) fun first => ?_
  refine (he _).bind fun value => ?_
  intro s
  show Levels cfg s
    ((if s.peek.kind = .semicolon then advance >>= fun _ => _ else _ : Parser Node) s)
  split
  · rename_i h
    exact levels_advance _ (by rw [h]; rfl)
  · exact levels_refl s _

include hr

theorem level_operand_bind {k : Node → Parser β} (power : Nat) (hk : ∀ n, Level cfg β (k n)) :
    Level cfg β (advance >>= fun _ => e power >>= k) := by
  rw [← bind_assoc]
  exact (level_operand (hr power) (he power)).bind hk

theorem level_letStatement : Level cfg Node (letStatement cfg e) := by
  refine Level.counted (counts_traced cfg _ _) ?_
  refine Level.bind (fun s => levels_refl s _) fun first => ?_
  refine Level.bind (level_expect rfl |>.bind fun _ s => levels_refl s _) fun name => ?_
  refine (level_expect rfl).bind fun _ => ?_
  refine level_operand_bind cfg hr he _ fun value => ?_
  exact level_skipSemicolons.bind fun _ s => levels_refl s _

theorem level_returnStatement : Level cfg Node (returnStatement cfg e) := by
  refine Level.counted (counts_traced cfg _ _) ?_
  refine Level.bind (fun s => levels_refl s _) fun first => ?_
  refine level_operand_bind cfg hr he _ fun value => ?_
  exact level_skipSemicolons.bind fun _ s => levels_refl s _

theorem level_bareStatement : Level cfg Node (bareStatement cfg e) := by
  refine Level.bind (fun s => levels_refl s _) fun token => ?_
  split
  · exact level_letStatement cfg hr he
  · exact level_returnStatement cfg hr he
  · exact level_expressionStatement cfg he

end

/-! ## Recovery -/

/-- Skipping the rest of a failed statement goes to where the statement ends above its depth. Only
a statement that failed on the brace below its depth stays there. -/
theorem Within.synchronize (h : Within s.braceDepth s s₁) :
    (Above s.braceDepth s (s₁.synchronize s.braceDepth) ∧
        (s₁.synchronize s.braceDepth).settled s.braceDepth) ∨
      (s₁.synchronize s.braceDepth = s₁ ∧ s₁.braceDepth = s.braceDepth - 1 ∧
        s₁.cur.kind = .rbrace) := by
  rcases h.above_or (Int.le_refl _) with habove | ⟨hdepth, hcur⟩
  · left
    clear h
    fun_induction State.synchronize s.braceDepth s₁ with
    | case1 s₁ hset => exact ⟨habove, hset⟩
    | case2 s₁ hset ih =>
      refine ih (habove.advance ?_)
      -- a closing brace right ahead is gone over from above the depth only
      have hle := habove.le_braceDepth (Int.le_refl _)
      by_cases hk : s₁.peek.kind = .rbrace
      · have hne : s₁.braceDepth ≠ s.braceDepth := by
          intro heq
          exact hset (by simp [State.settled, heq, hk])
        rw [braceDepth_advance, hk]
        simp only [braceStep]
        omega
      · have := braceStep_nonneg hk
        rw [braceDepth_advance]
        omega
  · right
    refine ⟨?_, hdepth, hcur⟩
    rw [State.synchronize, dif_pos]
    have hlt : s₁.braceDepth < s.braceDepth := by omega
    simp [State.settled, hlt]

theorem rest_eq_nil_of_cur (hs : s.Tidy) (hk : s.cur.kind = .eof) : s.rest = [] := by
  cases hr : s.rest with
  | nil => rfl
  | cons t ts =>
    refine absurd hk (hs s.cur ?_)
    simp [hr]

theorem rest_advance_eq_nil (hs : s.Tidy) (hk : s.peek.kind = .eof) : s.advance.rest = [] :=
  rest_eq_nil_of_cur (Moves.refl.advance.tidy hs) hk

/-- Where the rest of a failed statement is skipped above its depth, the next token is back at that
depth, up to what the token itself opens or closes. -/
theorem braceDepth_of_settled (hs : s₁.Tidy) (hle : depth ≤ s₁.braceDepth)
    (h : s₁.settled depth) :
    s₁.advance.braceDepth = depth + braceStep s₁.advance.cur.kind ∨ s₁.advance.rest = [] := by
  simp only [State.settled, Bool.or_eq_true, Bool.and_eq_true, beq_iff_eq, decide_eq_true_eq] at h
  rcases h with ((h | h) | ⟨h, -⟩) | h
  · right
    simp [State.advance, rest_eq_nil_of_cur hs h]
  · omega
  · left
    rw [braceDepth_advance, h]
    rfl
  · exact .inr (rest_advance_eq_nil hs h)

/-! ## Blocks -/

/-- Where a block that starts in `s` can be between its statements: no brace below its own is
closed but the one right below, and the current token is at the depth of the block unless the
tokens have run out or a brace was misread. -/
structure Between (cfg : Config) (budget : Nat) (s t : State) : Prop where
  moves : Moves s.advance t
  within : Within s.braceDepth s t
  settled : s.Tidy →
    t.braceDepth = s.braceDepth + braceStep t.cur.kind ∨ t.rest = [] ∨ Misreads cfg budget s t

theorem between_advance (cfg : Config) (budget : Nat) (s : State) :
    Between cfg budget s s.advance where
  moves := .refl
  within := Above.refl.advance_within (Int.le_refl _)
  settled _ := .inl rfl

/-- A statement that starts at an opening brace fails there. -/
theorem bareStatement_run_of_lbrace (cfg : Config) {e : Nat → Parser Node}
    (hr : ∀ power, Refuses (e power)) (hk : s.cur.kind = .lbrace) :
    ∃ complaint nesting traceLevel trace,
      bareStatement cfg e s =
        (.error ⟨complaint, s.cur.pos⟩, { s with nesting, traceLevel, trace }) ∧
      (complaint = .noExpression .lbrace ∨ ∃ limit, complaint = .tooDeep limit) := by
  have hb : bounding s.cur.kind := by rw [hk]; rfl
  obtain ⟨c, hc, hfail⟩ := refuses_expressionStatement cfg hr
  obtain ⟨n, l, t, hrun⟩ := hfail s (starter?_of_bounding hb)
  refine ⟨c s.cur.kind, n, l, t, ?_, hk ▸ hc s.cur.kind⟩
  rw [bareStatement_run_of_bounding hb, hrun]

/-- A statement that a block begins at an opening brace is misread. -/
theorem Rounds.misreads {budget : Nat} {t t₁ : State} {d : Diagnostic}
    (h : Rounds cfg (expression cfg budget) s t) (hk : t.cur.kind = .lbrace)
    (hfail : Fails (bareStatement cfg (expression cfg budget)) t d t₁) :
    Misreads cfg budget s (t₁.report d) := by
  obtain ⟨c, n, l, u, hrun, hc⟩ :=
    bareStatement_run_of_lbrace cfg (refuses_expression cfg budget) hk
  rw [Fails, hrun] at hfail
  obtain ⟨hd, rfl⟩ := Prod.mk.inj hfail
  cases hd
  have hmoves := (Moves.refl.count n l u (s := t)).report ⟨c, t.cur.pos⟩
  exact .own h hk rfl hc List.prefix_rfl hmoves

namespace Between

variable {budget : Nat} {t t₁ : State}

theorem above (h : Between cfg budget s t) (hk : t.cur.kind ≠ .rbrace) : Above s.braceDepth s t :=
  (h.within.above_or (Int.le_refl _)).resolve_right fun h => hk h.2

/-- A token that is no brace is at the depth of the block. -/
theorem braceDepth_eq (h : Between cfg budget s t) (hs : s.Tidy) (hk : t.cur.kind ≠ .rbrace)
    (hk' : t.cur.kind ≠ .lbrace) :
    t.braceDepth = s.braceDepth ∨ t.rest = [] ∨ Misreads cfg budget s t := by
  refine (h.settled hs).imp (fun hd => ?_) id
  have hstep : braceStep t.cur.kind = 0 := by
    cases hc : t.cur.kind <;> simp_all [braceStep]
  omega

/-- A statement that is given leaves the block where it was. -/
theorem after_given {n : Node} (h : Between cfg budget s t)
    (hround : Rounds cfg (expression cfg budget) s t) (hk : t.cur.kind ≠ .rbrace)
    (hk' : t.cur.kind ≠ .lbrace) (hrun : Gives (bareStatement cfg (expression cfg budget)) t n t₁)
    (hlevel : Levels cfg t (.ok n, t₁)) : Between cfg budget s t₁.advance := by
  obtain ⟨habove, hsettles⟩ := hlevel
  have hout := h.above hk
  have hle := hout.le_braceDepth (Int.le_refl _)
  refine ⟨(h.moves.trans habove.moves).advance, ?_, fun hs => ?_⟩
  · exact (hout.trans (habove.mono hle)).advance_within (Int.le_refl _)
  have hnext := Moves.refl.advance (s := t₁)
  rcases h.braceDepth_eq hs hk hk' with hd | hlate
  · rcases hsettles (hout.moves.tidy hs) with hd' | hnil | ⟨_, b, b', hblock, hmis, hend⟩
    · left
      rw [braceDepth_advance, hd', hd]
      rfl
    · exact .inr (hnext.misreads_later (.inl hnil))
    · have hlast : (bareStatement cfg (expression cfg budget) t).2 = t₁ := congrArg Prod.snd hrun
      refine .inr (.inr (.inner hround hblock hmis ?_ ?_))
      · rwa [hlast]
      · rwa [hlast]
  · exact .inr ((habove.moves.advance).misreads_later hlate)

/-- A failed statement was at the depth of the block, or something was amiss by its end. -/
theorem depth_of_failed {d : Diagnostic} (h : Between cfg budget s t) (hs : s.Tidy)
    (hround : Rounds cfg (expression cfg budget) s t) (hk : t.cur.kind ≠ .rbrace)
    (hfail : Fails (bareStatement cfg (expression cfg budget)) t d t₁)
    (hmoves : Moves t (t₁.report d)) : t.braceDepth = s.braceDepth ∨ (t₁.report d).rest = [] ∨
      Misreads cfg budget s (t₁.report d) := by
  by_cases hk' : t.cur.kind = .lbrace
  · exact .inr (.inr (hround.misreads hk' hfail))
  · exact (h.braceDepth_eq hs hk hk').imp id hmoves.misreads_later

/-- A failed statement that is skipped above its depth leaves the block where it was. -/
theorem after_skipped (h : Between cfg budget s t) (hk : t.cur.kind ≠ .rbrace)
    (hdepth : s.Tidy → t.braceDepth = s.braceDepth ∨ t₁.rest = [] ∨ Misreads cfg budget s t₁)
    (habove : Above t.braceDepth t (t₁.synchronize t.braceDepth))
    (hset : (t₁.synchronize t.braceDepth).settled t.braceDepth) :
    Between cfg budget s (t₁.synchronize t.braceDepth).advance := by
  have hout := h.above hk
  have hin := hout.trans (habove.mono (hout.le_braceDepth (Int.le_refl _)))
  refine ⟨(h.moves.trans habove.moves).advance, hin.advance_within (Int.le_refl _), fun hs => ?_⟩
  rcases hdepth hs with hd | hlate
  · have hge := habove.le_braceDepth (Int.le_refl _)
    rcases braceDepth_of_settled (hin.moves.tidy hs) hge hset with hback | hnil
    · left
      rw [hback, hd]
    · exact .inr (.inl hnil)
  · have hskip := (Moves.refl (s := t₁)).synchronize t.braceDepth
    exact .inr (hskip.advance.misreads_later hlate)

/-- A statement that failed on the brace right below its depth failed on the brace that closes the
block. Only in a block that something was amiss in is it a brace further in. -/
theorem after_closed (h : Between cfg budget s t) (hk : t.cur.kind ≠ .rbrace)
    (hdepth : s.Tidy → t.braceDepth = s.braceDepth ∨ t₁.rest = [] ∨ Misreads cfg budget s t₁)
    (hrun : Within t.braceDepth t t₁) (hlow : t₁.braceDepth = t.braceDepth - 1)
    (hcur : t₁.cur.kind = .rbrace) :
    if t₁.braceDepth < s.braceDepth then Between cfg budget s t₁
    else Between cfg budget s t₁.advance := by
  have hout := h.above hk
  have hle := hout.le_braceDepth (Int.le_refl _)
  have hmoves := h.moves.trans hrun.moves
  have hback : Within s.braceDepth s t₁ := Within.after hout hle hrun
  split
  · refine ⟨hmoves, hback, fun _ => .inl ?_⟩
    rw [hcur, hlow]
    simp only [braceStep]
    omega
  · have hin : Above s.braceDepth s t₁ :=
      (hback.above_or (Int.le_refl _)).resolve_right fun h => by omega
    refine ⟨hmoves.advance, hin.advance_within (Int.le_refl _), fun hs => ?_⟩
    have hlate := (hdepth hs).resolve_left (by omega)
    exact .inr (Moves.refl.advance.misreads_later hlate)

/-- **After a failed statement a block is on its closing brace, or between its statements.** -/
theorem after_failed {d : Diagnostic} (h : Between cfg budget s t)
    (hround : Rounds cfg (expression cfg budget) s t) (hk : t.cur.kind ≠ .rbrace)
    (hfail : Fails (bareStatement cfg (expression cfg budget)) t d t₁)
    (hrun : Within t.braceDepth t t₁) :
    if ((t₁.report d).synchronize t.braceDepth).braceDepth < s.braceDepth then
      Between cfg budget s ((t₁.report d).synchronize t.braceDepth) ∧
        ((t₁.report d).synchronize t.braceDepth).cur.kind = .rbrace
    else Between cfg budget s ((t₁.report d).synchronize t.braceDepth).advance := by
  have hwithin := hrun.report d
  have hdepth (hs : s.Tidy) := h.depth_of_failed hs hround hk hfail hwithin.moves
  rcases hwithin.synchronize with ⟨habove, hset⟩ | ⟨heq, hlow, hcur⟩
  · have hle := (h.above hk).le_braceDepth (Int.le_refl _)
    have hge := habove.le_braceDepth (Int.le_refl _)
    rw [if_neg (by omega)]
    exact h.after_skipped hk hdepth habove hset
  · have hnext := h.after_closed hk hdepth hwithin hlow hcur
    rw [heq]
    split at hnext
    · rw [if_pos ‹_›]
      exact ⟨hnext, hcur⟩
    · rw [if_neg ‹_›]
      exact hnext

/-- A round of a block keeps the block between its statements. -/
theorem round (h : Between cfg budget s t) (hround : Rounds cfg (expression cfg budget) s t)
    (he : ∀ power, Level cfg Node (expression cfg budget power)) (ss : List Node) :
    ∃ o t', blockStep cfg (expression cfg budget) s.braceDepth ss t = (.ok o, t') ∧
      Between cfg budget s t' ∧ (o = none → t'.cur.kind = .rbrace ∨ t'.cur.kind = .eof) := by
  have hlevel := level_bareStatement cfg (refuses_expression cfg budget) he t
  rw [blockStep_run]
  split
  · rename_i hend
    exact ⟨none, t, rfl, h, fun _ => hend⟩
  · rename_i hend
    have hk : t.cur.kind ≠ .rbrace := fun hk => hend (.inl hk)
    rcases hrun : bareStatement cfg (expression cfg budget) t with ⟨d | n, t₁⟩
    · rw [hrun] at hlevel
      have hnext := h.after_failed hround hk hrun hlevel
      dsimp only
      split at hnext
      · rw [if_pos ‹_›]
        exact ⟨none, _, rfl, hnext.1, fun _ => .inl hnext.2⟩
      · rw [if_neg ‹_›]
        exact ⟨some ss, _, rfl, hnext, fun h => by cases h⟩
    · rw [hrun] at hlevel
      have hk' : t.cur.kind ≠ .lbrace := by
        intro hk'
        obtain ⟨_, _, _, _, hfail, -⟩ :=
          bareStatement_run_of_lbrace cfg (refuses_expression cfg budget) hk'
        rw [hrun] at hfail
        cases hfail
      exact ⟨_, _, rfl, h.after_given hround hk hk' hrun hlevel, fun h => by cases h⟩

theorem counted {n l n' l' : Nat} {u u' : List TraceLine}
    (h : Between cfg budget { s with nesting := n, traceLevel := l, trace := u } t) :
    Between cfg budget s { t with nesting := n', traceLevel := l', trace := u' } where
  moves := ((Moves.refl.count n l u).trans h.moves).count n' l' u'
  within := (Within.after (Above.refl.count n l u) (Int.le_refl _) h.within).count n' l' u'
  settled hs := (h.settled hs).imp id (.imp id fun hmis =>
    hmis.counted.after (Moves.refl.count n' l' u'))

end Between

section

variable {budget : Nat} (he : ∀ power, Level cfg Node (expression cfg budget power))

include he

theorem Between.iterate {t : State} (h : Between cfg budget s t)
    (hround : Rounds cfg (expression cfg budget) s t) (ss : List Node) :
    ∃ ss' s', Gives (iterate (blockStep cfg (expression cfg budget) s.braceDepth) ss) t ss' s' ∧
      Between cfg budget s s' ∧ (s'.cur.kind = .rbrace ∨ s'.cur.kind = .eof) := by
  refine iterate_induction (P := fun _ t r => Between cfg budget s t →
    Rounds cfg (expression cfg budget) s t → ∃ ss' s', r = (.ok ss', s') ∧
      Between cfg budget s s' ∧ (s'.cur.kind = .rbrace ∨ s'.cur.kind = .eof))
    ?_ ?_ ?_ ss t h hround
  · intro ss t t' hstep h hround
    obtain ⟨o, _, hrun, hbetween, hend⟩ := h.round hround he ss
    rw [hstep] at hrun
    cases hrun
    exact ⟨ss, t', rfl, hbetween, hend rfl⟩
  · intro ss t d t' hstep h hround
    obtain ⟨o, _, hrun, -⟩ := h.round hround he ss
    rw [hstep] at hrun
    cases hrun
  · intro ss ss₁ t t₁ r hstep ih h hround
    obtain ⟨o, _, hrun, hbetween, -⟩ := h.round hround he ss
    rw [hstep] at hrun
    cases hrun
    exact ih hbetween (hround.next hstep)

/-- **A block never fails.** It ends at a closing brace or at the end of the text, within its
braces or on the one that closes it. -/
theorem block_run (s : State) :
    ∃ n s', Gives (block cfg (expression cfg budget)) s n s' ∧ Between cfg budget s s' ∧
      (s'.cur.kind = .rbrace ∨ s'.cur.kind = .eof) := by
  obtain ⟨n, l, u, n', l', u', hrun⟩ := counts_block cfg (expression cfg budget) s
  have hfirst := between_advance cfg budget { s with nesting := n, traceLevel := l, trace := u }
  obtain ⟨ss, s', hloop, hbetween, hend⟩ := hfirst.iterate he (.first n l u) []
  rw [gives_blockBody hloop] at hrun
  exact ⟨_, _, hrun, hbetween.counted, hend⟩

/-- A block in its braces keeps its level. -/
theorem level_braced :
    Level cfg Node (expect .lbrace >>= fun _ => block cfg (expression cfg budget)) := by
  intro s
  rw [bind_run]
  by_cases hk : s.peek.kind = .lbrace
  · rw [expect_run_of_peek hk]
    obtain ⟨n, s', hrun, h, hend⟩ := block_run he s.advance
    have hdepth : s.advance.braceDepth = s.braceDepth + 1 := by
      rw [braceDepth_advance, hk]
      rfl
    show Levels cfg s (block cfg (expression cfg budget) s.advance)
    rw [hrun]
    have hin := h.within.above_pred (Int.le_refl _)
    rw [hdepth, Int.add_sub_cancel] at hin
    have hopen : Above s.braceDepth s s.advance := Above.refl.advance (by omega)
    refine ⟨hopen.trans hin, fun hs => ?_⟩
    rcases h.settled (hopen.moves.tidy hs) with hd | hnil | hmis
    · rcases hend with hend | hend
      · left
        rw [hd, hdepth, hend]
        simp only [braceStep]
        omega
      · exact .inr (.inl (rest_eq_nil_of_cur ((hopen.trans hin).moves.tidy hs) hend))
    · exact .inr (.inl hnil)
    · exact .inr (.inr ⟨budget, _, _, ⟨hopen.moves, hk, hdepth⟩, hmis, .refl⟩)
  · rw [expect_run_of_not_peek hk]
    exact .above .refl

end

theorem compositional_level (cfg : Config) : Compositional cfg (Level cfg) where
  give a s := levels_refl s a
  fail _ _ := .above .refl
  current s := levels_refl s _
  next s := levels_refl s _
  seq hp hf := hp.bind hf
  token hk := level_expect hk
  deeper hp := hp.counted (counts_nested _)
  rule r _ hp := hp.counted (counts_traced cfg r _)
  loop hstep a := Level.iterate hstep a
  operand hr he := level_operand hr he
  braced he := level_braced he

/-- **An expression keeps its level**, whatever it is given and however it ends. -/
theorem level_expression (cfg : Config) (budget power : Nat) :
    Level cfg Node (expression cfg budget power) :=
  (compositional_level cfg).holds_expression budget power

end Scriptlet.Parser
