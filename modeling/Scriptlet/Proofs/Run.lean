/-!
# Running a computation

Parsers and evaluators are computations with a state that may end early. Here is how such a
computation runs when it is put together from two.
-/

namespace Scriptlet

variable {ε σ α β : Type}

/-- The second computation starts in the state that the first one left, unless that ended early. -/
theorem bind_run (p : ExceptT ε (StateM σ) α) (f : α → ExceptT ε (StateM σ) β) (s : σ) :
    (p >>= f) s = match p s with
      | (.ok a, s') => f a s'
      | (.error e, s') => (.error e, s') := by
  show (ExceptT.bindCont f (p s).1 (p s).2) = _
  rcases p s with ⟨_ | _, _⟩ <;> rfl

theorem get_bind_run (k : σ → ExceptT ε (StateM σ) α) (s : σ) : (get >>= k) s = k s s := rfl

/-- What comes to a value without a state does so in both of its parts. -/
theorem exists_of_bind_eq_ok {x : Except ε α} {f : α → Except ε β} {b : β}
    (h : (x >>= f) = .ok b) : ∃ a, x = .ok a ∧ f a = .ok b := by
  cases x with
  | error e => cases h
  | ok a => exact ⟨a, rfl, h⟩

/-- What fails without a state does so in one of its parts. -/
theorem cases_of_bind_eq_error {x : Except ε α} {f : α → Except ε β} {e : ε}
    (h : (x >>= f) = .error e) : x = .error e ∨ ∃ a, x = .ok a ∧ f a = .error e := by
  cases x with
  | error e' =>
    cases h
    exact .inl rfl
  | ok a => exact .inr ⟨a, rfl, h⟩

end Scriptlet
