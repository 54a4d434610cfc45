import Scriptlet.Proofs.Parser.Run

/-!
# The loops of the parser

Every loop of the parser ends because its rounds use up tokens, so that its bound is never felt.

* `Ending`: a loop whose rounds make a measure smaller; the five loops of the parser are.
* `iterate_eq`: such a loop is one round and the loop again.
* `iterate_induction`: what its rounds keep, the loop keeps, however it ends.
* `yields_iterate_induction`: the same for a loop that reports nothing.
* `iterate_lockstep`: two runs of a loop that go round together.
-/

namespace Scriptlet.Parser

open Syntax (Node)
open Token (Kind)

variable {α : Type} {s s₁ s' : State}

section

/-- What a loop does after a round: it ends with what it had, or goes on with what the round
gives. -/
def again (step : α → Parser (Option α)) (a : α) : Option α → Parser α
  | none => pure a
  | some a => iterate step a

variable {step : α → Parser (Option α)} {μ : State → Nat}

instance [∀ a, Moving (step a)] (a : α) (o : Option α) : Moving (again step a o) := by
  cases o with
  | none => exact inferInstanceAs (Moving (pure a))
  | some a' => exact inferInstanceAs (Moving (iterate step a'))

theorem iterateUpTo_eq (hstop : ∀ a s, μ s = 0 → Gives (step a) s none s)
    (hdec : ∀ a a' s s', Gives (step a) s (some a') s' → μ s' < μ s) :
    ∀ n m a s, μ s ≤ n → μ s ≤ m → iterateUpTo step n a s = iterateUpTo step m a s := by
  intro n
  induction n with
  | zero =>
    -- where the measure is used up the step ends the loop, so that a limit is never what ends it
    intro m a s hn _
    cases m with
    | zero => rfl
    | succ m =>
      show _ = (step a >>= _) s
      rw [bind_run, hstop a s (by omega)]
      rfl
  | succ n ih =>
    intro m a s _ hm
    show (step a >>= _) s = _
    rw [bind_run]
    cases m with
    | zero =>
      rw [hstop a s (by omega)]
      rfl
    | succ m =>
      show _ = (step a >>= _) s
      rw [bind_run]
      rcases h : step a s with ⟨d | _ | a', s'⟩
      · rfl
      · rfl
      · have := hdec a a' s s' h
        exact ih m a' s' (by omega) (by omega)

/-- A loop ends: every round that goes on makes a measure of the state smaller, and none goes on
where the measure is zero. The measure is at most the number of tokens left, the current one
included. -/
class Ending (step : α → Parser (Option α)) : Prop where
  measure : ∃ μ : State → Nat, (∀ s, μ s ≤ s.rest.length + 1) ∧
    (∀ a s, μ s = 0 → Gives (step a) s none s) ∧
    ∀ a a' s s', Gives (step a) s (some a') s' → μ s' < μ s

/-- **A loop is one round and the loop again.** -/
theorem iterate_eq [he : Ending step] (a : α) : iterate step a = step a >>= again step a := by
  obtain ⟨μ, hμ, hstop, hdec⟩ := he.measure
  funext s
  show iterateUpTo step (s.rest.length + 1) a s = (step a >>= _) s
  rw [iterateUpTo_eq hstop hdec _ (s.rest.length + 2) a s (hμ s) (Nat.le_succ_of_le (hμ s))]
  show (step a >>= _) s = _
  rw [bind_run, bind_run]
  rcases h : step a s with ⟨d | _ | a', s'⟩
  · rfl
  · rfl
  · have := hdec a a' s s' h
    have := hμ s
    exact iterateUpTo_eq hstop hdec _ _ a' s' (by omega) (hμ s')

/-- **What a round that ends the loop gives, and what is kept by a round in front, holds of a
loop**, however it ends. -/
theorem iterate_induction [he : Ending step] {P : α → State → Except Diagnostic α × State → Prop}
    (stop : ∀ a s s', Gives (step a) s none s' → P a s (.ok a, s'))
    (fail : ∀ a s d s', Fails (step a) s d s' → P a s (.error d, s'))
    (again : ∀ a a₁ s s₁ r, Gives (step a) s (some a₁) s₁ → P a₁ s₁ r → P a s r)
    (a : α) (s : State) : P a s (iterate step a s) := by
  obtain ⟨μ, -, -, hdec⟩ := he.measure
  induction hl : μ s using Nat.strongRecOn generalizing a s with
  | ind l ih =>
    rw [iterate_eq, bind_run]
    rcases hr : step a s with ⟨d | _ | a₁, s₁⟩
    · exact fail a s d s₁ hr
    · exact stop a s s₁ hr
    · exact again a a₁ s s₁ _ hr (ih _ (hl ▸ hdec a a₁ s s₁ hr) a₁ s₁ rfl)

/-- **Two runs of a loop that go round together end together.** -/
theorem iterate_lockstep [Ending step] {R : α → α → State → State → Prop}
    {Q : Except Diagnostic α × State → Except Diagnostic α × State → Prop}
    (round : ∀ a b s t, R a b s t →
      (∃ d d' s' t', Fails (step a) s d s' ∧ Fails (step b) t d' t' ∧
        Q (.error d, s') (.error d', t')) ∨
      (∃ s' t', Gives (step a) s none s' ∧ Gives (step b) t none t' ∧ Q (.ok a, s') (.ok b, t')) ∨
      ∃ a' b' s' t', Gives (step a) s (some a') s' ∧ Gives (step b) t (some b') t' ∧
        R a' b' s' t')
    {a b : α} {s t : State} (h : R a b s t) : Q (iterate step a s) (iterate step b t) := by
  refine iterate_induction (P := fun a s r => ∀ b t, R a b s t → Q r (iterate step b t))
    ?_ ?_ ?_ a s b t h
  · intro a s s' hstep b t h
    rw [iterate_eq, bind_run]
    rcases round a b s t h with ⟨_, _, _, _, hs, -⟩ | ⟨_, t', hs, ht, hq⟩ | ⟨_, _, _, _, hs, -⟩
    · cases hstep.symm.trans hs
    · cases hstep.symm.trans hs
      rw [ht]
      exact hq
    · cases hstep.symm.trans hs
  · intro a s d s' hstep b t h
    rw [iterate_eq, bind_run]
    rcases round a b s t h with ⟨_, _, _, t', hs, ht, hq⟩ | ⟨_, _, hs, -⟩ | ⟨_, _, _, _, hs, -⟩
    · cases hstep.symm.trans hs
      rw [ht]
      exact hq
    · cases hstep.symm.trans hs
    · cases hstep.symm.trans hs
  · intro a a₁ s s₁ r hstep ih b t h
    rw [iterate_eq, bind_run]
    rcases round a b s t h with ⟨_, _, _, _, hs, -⟩ | ⟨_, _, hs, -⟩ | ⟨_, b', _, t', hs, ht, hr⟩
    · cases hstep.symm.trans hs
    · cases hstep.symm.trans hs
    · cases hstep.symm.trans hs
      rw [ht]
      exact ih b' t' hr

variable [Ending step] [∀ a, Moving (step a)] {a a₁ b : α}

theorem yields_iterate_stop (h : Yields (step a) s none s') : Yields (iterate step a) s a s' := by
  rw [iterate_eq, yields_bind]
  exact ⟨none, s', h, yields_pure.2 ⟨rfl, rfl⟩⟩

theorem yields_iterate_again (h : Yields (step a) s (some a₁) s₁)
    (h' : Yields (iterate step a₁) s₁ b s') : Yields (iterate step a) s b s' := by
  rw [iterate_eq, yields_bind]
  exact ⟨some a₁, s₁, h, h'⟩

/-- **What holds after the last round and is kept by a round in front holds of a loop** that gives
its result without a diagnostic. -/
theorem yields_iterate_induction {P : α → State → Prop}
    (stop : ∀ s, Yields (step b) s none s' → P b s)
    (again : ∀ a a₁ s s₁, Yields (step a) s (some a₁) s₁ → P a₁ s₁ → P a s) :
    Yields (iterate step a) s b s' → P a s := by
  obtain ⟨μ, -, -, hdec⟩ := ‹Ending step›.measure
  induction hl : μ s using Nat.strongRecOn generalizing a s with
  | ind l ih =>
    intro h
    rw [iterate_eq, yields_bind] at h
    obtain ⟨o, s₁, h₁, h₂⟩ := h
    cases o with
    | none =>
      obtain ⟨rfl, rfl⟩ := yields_pure.1 h₂
      exact stop s h₁
    | some a₁ => exact again a a₁ s s₁ h₁ (ih _ (hl ▸ hdec a a₁ s s₁ h₁.1) rfl h₂)

end

/-! ## What is left -/

namespace State

/-- The number of tokens left, the current one included unless it is the end of the text. -/
def left (s : State) : Nat := s.rest.length + if s.cur.kind = .eof then 0 else 1

theorem left_le (s : State) : s.left ≤ s.rest.length + 1 := by
  unfold left
  split <;> omega

theorem cur_eof_of_left (h : s.left = 0) : s.cur.kind = .eof := by
  unfold left at h
  split at h
  · assumption
  · omega

theorem peek_eof_of_rest (h : s.rest.length = 0) : s.peek.kind = .eof := by
  rw [List.length_eq_zero_iff] at h
  simp [peek, h, Token.eofAt]

end State

/-- A statement and a move to the next token use up a token, if there was one. -/
theorem Moves.left_advance_lt (h : Moves s s₁) (hc : s.cur.kind ≠ .eof) :
    s₁.advance.left < s.left := by
  have hl := h.length_rest_le
  unfold State.left
  rw [if_neg hc]
  cases hr : s₁.rest with
  | nil => simp [State.advance, State.peek, hr, Token.eofAt]
  | cons t ts =>
    rw [hr, List.length_cons] at hl
    simp only [State.advance, hr, List.tail_cons]
    split <;> omega

theorem Moves.length_rest_lt (h : Moves s.advance s') (hp : s.peek.kind ≠ .eof) :
    s'.rest.length < s.rest.length :=
  Nat.lt_of_le_of_lt h.length_rest_le (s.length_advance_lt hp)

/-! ## The five loops -/

instance : Ending parametersStep := by
  refine ⟨fun s => s.rest.length, fun s => Nat.le_succ _, ?_, ?_⟩
  · intro names s h
    simp [parametersStep, State.peek_eof_of_rest h, and_assoc]
  · intro names names' s s' h
    simp only [parametersStep, bind_pure_comp, gives_bind, gives_peek, gives_ite, gives_pure,
      gives_map, gives_advance] at h
    obtain ⟨_, s, ⟨rfl, rfl⟩, h⟩ := h
    split at h
    · cases h.1
    · rename_i hk
      obtain ⟨_, _, rfl, _, _, h⟩ := h
      exact h.moves.length_rest_lt (by rw [Decidable.not_not.1 hk]; decide)

section

variable (cfg : Config) (expression : Nat → Parser Node) [∀ power, Moving (expression power)]

instance : Ending (argumentsStep expression) := by
  refine ⟨fun s => s.rest.length, fun s => Nat.le_succ _, ?_, ?_⟩
  · intro args s h
    simp [argumentsStep, State.peek_eof_of_rest h, and_assoc]
  · intro args args' s s' h
    simp only [argumentsStep, bind_pure_comp, gives_bind, gives_peek, gives_ite, gives_pure,
      gives_map, gives_advance] at h
    obtain ⟨_, s, ⟨rfl, rfl⟩, h⟩ := h
    split at h
    · cases h.1
    · rename_i hk
      obtain ⟨_, _, rfl, _, _, rfl, _, _, h⟩ := h
      have hcomma : s.peek.kind ≠ .eof := by rw [Decidable.not_not.1 hk]; decide
      exact (Moves.refl.advance.trans h.moves).length_rest_lt hcomma

theorem continuer?_eof : cfg.continuer? .eof = none := by
  unfold Config.continuer?
  split <;> rfl

instance (power : Nat) : Ending (extendStep cfg expression power) := by
  refine ⟨fun s => s.rest.length, fun s => Nat.le_succ _, ?_, ?_⟩
  · intro left s h
    have hp := State.peek_eof_of_rest h
    simp only [extendStep, gives_bind, gives_peek, gives_ite, gives_pure]
    refine ⟨_, _, ⟨rfl, rfl⟩, ?_⟩
    rw [hp, continuer?_eof]
    simp
  · intro left left' s s' h
    simp only [extendStep, gives_bind, gives_peek, gives_ite, gives_pure] at h
    obtain ⟨_, s, ⟨rfl, rfl⟩, h⟩ := h
    split at h
    · cases h.1
    have hp : cfg.continuer? s.peek.kind ≠ none → s.peek.kind ≠ .eof := by
      intro hc he
      rw [he, continuer?_eof] at hc
      exact hc rfl
    split at h
    · simp at h
    · rename_i hc
      simp only [gives_bind, gives_advance, gives_pure] at h
      obtain ⟨_, _, rfl, _, _, h, -, rfl⟩ := h
      exact h.moves.length_rest_lt (hp (by simp [hc]))
    · rename_i hc
      simp only [gives_bind, gives_advance, gives_pure] at h
      obtain ⟨_, _, rfl, _, _, h, -, rfl⟩ := h
      exact h.moves.length_rest_lt (hp (by simp [hc]))

instance (depth : Int) : Ending (blockStep cfg expression depth) := by
  refine ⟨State.left, State.left_le, ?_, ?_⟩
  · intro ss s h
    simp [blockStep, State.cur_eof_of_left h, and_assoc]
  · intro ss ss' s s' h
    simp only [blockStep, gives_bind, gives_cur, gives_ite, gives_pure] at h
    obtain ⟨_, s, ⟨rfl, rfl⟩, h⟩ := h
    split at h
    · cases h.1
    rename_i hk
    obtain ⟨o, s₁, h₁, h⟩ := h
    have hc : s.cur.kind ≠ .eof := fun he => hk (.inr he)
    cases o with
    | some st =>
      simp only [gives_bind, gives_advance, gives_pure] at h
      obtain ⟨_, _, rfl, -, rfl⟩ := h
      exact h₁.moves.left_advance_lt hc
    | none =>
      simp only [gives_bind, gives_get, gives_ite, gives_advance, gives_pure] at h
      obtain ⟨_, s, ⟨rfl, rfl⟩, h⟩ := h
      split at h
      · cases h.1
      · obtain ⟨_, _, rfl, -, rfl⟩ := h
        exact h₁.moves.left_advance_lt hc

instance : Ending (programStep cfg expression) := by
  refine ⟨State.left, State.left_le, ?_, ?_⟩
  · intro ss s h
    simp [programStep, State.cur_eof_of_left h, and_assoc]
  · intro ss ss' s s' h
    simp only [programStep, gives_bind, gives_cur, gives_ite, gives_pure, gives_advance] at h
    obtain ⟨_, s, ⟨rfl, rfl⟩, h⟩ := h
    split at h
    · cases h.1
    · rename_i hc
      obtain ⟨_, _, h, _, _, rfl, -, rfl⟩ := h
      exact h.moves.left_advance_lt hc

end

end Scriptlet.Parser
