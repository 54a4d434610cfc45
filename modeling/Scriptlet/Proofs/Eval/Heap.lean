import Scriptlet.Eval.Heap

/-!
# Reading scopes after a change

What each scope of a heap is after a name was bound in one of them, or after a scope was added.

* `scope_bind_self`, `scope_bind_of_ne`, `scope_bind_cases`: binding a name touches one scope.
* `scope_addInside_self`, `scope_addInside_of_ne`: a new scope takes the next number.
* `scope_bindAll_of_ne`: binding several names in one scope touches no other.
* `mem_bindings_bind`, `mem_bindings_bindAll`, `mem_bindings_addInside`: what is bound afterwards.
* `Binds`: what holds of every value that is bound, and what keeps it so.
-/

namespace Scriptlet

namespace Scope

theorem find?_bind_self (s : Scope) (name : String) (v : Value) :
    (s.bind name v).find? name = some v := by
  simp [find?, bind]

theorem find?_bind_of_ne (s : Scope) {name other : String} (v : Value) (hne : other ≠ name) :
    (s.bind name v).find? other = s.find? other := by
  have hhead : (other == name) = false := by simpa using hne
  simp only [find?, bind, List.lookup_cons, hhead]
  -- the bindings that `bind` drops are all of `name`
  induction s.bindings with
  | nil => rfl
  | cons b bs ih =>
    obtain ⟨key, w⟩ := b
    by_cases hkey : key = name
    · subst hkey
      simp only [List.filter_cons, bne_self_eq_false, Bool.false_eq_true, if_false,
        List.lookup_cons, hhead, ih]
    · have hkept : (key != name) = true := by simpa using hkey
      simp only [List.filter_cons, hkept, if_true, List.lookup_cons, ih]

end Scope

namespace Heap

variable (h : Heap)

/-! ## Binding a name -/

@[simp] theorem nextId_bind (i : ScopeId) (name : String) (v : Value) :
    (h.bind i name v).nextId = h.nextId := by
  simp [nextId, bind]

theorem scope_bind_self {i : ScopeId} (hi : i < h.nextId) (name : String) (v : Value) :
    (h.bind i name v).scope i = (h.scope i).bind name v := by
  have hsize : i < h.scopes.size := hi
  simp [scope, bind, Array.getD, hsize, Array.getElem_modify_self]

theorem scope_bind_of_ne {i j : ScopeId} (hne : j ≠ i) (name : String) (v : Value) :
    (h.bind i name v).scope j = h.scope j := by
  by_cases hj : j < h.scopes.size
  · simp [scope, bind, Array.getD, hj, Array.getElem_modify_of_ne (Ne.symm hne)]
  · simp [scope, bind, Array.getD, hj]

/-- A number that no scope has is that of the scope with nothing in it. -/
theorem scope_of_nextId_le {i : ScopeId} (hi : h.nextId ≤ i) : h.scope i = ⟨[], []⟩ := by
  have hsize : ¬ i < h.scopes.size := Nat.not_lt.2 hi
  simp [scope, Array.getD, hsize]

/-- Binding a name in a scope that does not exist does nothing. -/
theorem scope_bind_of_nextId_le {i : ScopeId} (hi : h.nextId ≤ i) (name : String) (v : Value) :
    (h.bind i name v).scope i = h.scope i := by
  rw [scope_of_nextId_le _ hi, scope_of_nextId_le _ (by simpa using hi)]

/-- What binding a name can do to a scope: nothing, or that the name is bound in it. -/
theorem scope_bind_cases (i : ScopeId) (name : String) (v : Value) (j : ScopeId) :
    (h.bind i name v).scope j = h.scope j ∨
      (h.bind i name v).scope j = (h.scope j).bind name v := by
  by_cases hj : j = i
  · subst hj
    by_cases hlt : j < h.nextId
    · exact .inr (scope_bind_self h hlt name v)
    · exact .inl (scope_bind_of_nextId_le h (Nat.not_lt.1 hlt) name v)
  · exact .inl (scope_bind_of_ne h hj name v)

/-! ## Adding a scope -/

@[simp] theorem nextId_addInside (i : ScopeId) : (h.addInside i).nextId = h.nextId + 1 := by
  simp [nextId, addInside]

theorem scope_addInside_self (i : ScopeId) :
    (h.addInside i).scope h.nextId = ⟨[], h.chain i⟩ := by
  simp [scope, addInside, nextId, Array.getD]

theorem scope_addInside_of_ne {j : ScopeId} (hne : j ≠ h.nextId) (i : ScopeId) :
    (h.addInside i).scope j = h.scope j := by
  have hsize : j ≠ h.scopes.size := hne
  simp only [scope, addInside, Array.getD_eq_getD_getElem?, Array.getElem?_push, if_neg hsize]

/-- A scope outside all others starts like a number that no scope has. -/
theorem scope_addOutermost (j : ScopeId) : h.addOutermost.scope j = h.scope j := by
  by_cases hj : j = h.scopes.size
  · subst hj
    simp [scope, addOutermost, Array.getD]
  · simp only [scope, addOutermost, Array.getD_eq_getD_getElem?, Array.getElem?_push, if_neg hj]

/-! ## Binding several names -/

@[simp] theorem nextId_bindAll (i : ScopeId) (bs : List (String × Value)) :
    (h.bindAll i bs).nextId = h.nextId := by
  induction bs generalizing h with
  | nil => rfl
  | cons b bs ih => exact (ih (h.bind i b.1 b.2)).trans (nextId_bind h i b.1 b.2)

theorem scope_bindAll_of_ne {i j : ScopeId} (hne : j ≠ i) (bs : List (String × Value)) :
    (h.bindAll i bs).scope j = h.scope j := by
  induction bs generalizing h with
  | nil => rfl
  | cons b bs ih => exact (ih (h.bind i b.1 b.2)).trans (scope_bind_of_ne h hne b.1 b.2)

/-! ## What is bound where -/

section

variable {h} {i j : ScopeId} {name : String} {v : Value} {b : String × Value}

theorem mem_bindings_bind (hb : b ∈ ((h.bind i name v).scope j).bindings) :
    b = (name, v) ∨ b ∈ (h.scope j).bindings := by
  rcases scope_bind_cases h i name v j with hsame | hbound
  · rw [hsame] at hb
    exact .inr hb
  · rw [hbound] at hb
    rcases List.mem_cons.1 hb with hnew | hold
    · exact .inl hnew
    · exact .inr (List.mem_filter.1 hold).1

theorem mem_bindings_bindAll {bs : List (String × Value)}
    (hb : b ∈ ((h.bindAll i bs).scope j).bindings) : b ∈ bs ∨ b ∈ (h.scope j).bindings := by
  induction bs generalizing h with
  | nil => exact .inr hb
  | cons c bs ih =>
    rcases ih hb with hrest | hfirst
    · exact .inl (List.mem_cons_of_mem _ hrest)
    · rcases mem_bindings_bind hfirst with rfl | hold
      · exact .inl List.mem_cons_self
      · exact .inr hold

/-- A scope that was added binds nothing. -/
theorem mem_bindings_addInside (hb : b ∈ ((h.addInside i).scope j).bindings) :
    b ∈ (h.scope j).bindings := by
  by_cases hj : j = h.nextId
  · subst hj
    rw [scope_addInside_self] at hb
    cases hb
  · rwa [scope_addInside_of_ne h hj] at hb

/-- What a name is found to be bound to is bound in a scope. -/
theorem exists_mem_bindings_of_find? (hv : h.find? i name = some v) :
    ∃ j, (name, v) ∈ (h.scope j).bindings := by
  obtain ⟨j, -, hj⟩ := List.exists_of_findSome?_eq_some hv
  unfold Scope.find? at hj
  obtain ⟨l, r, hsplit, -⟩ := List.lookup_eq_some_iff.1 hj
  refine ⟨j, ?_⟩
  rw [hsplit]
  simp

end

/-! ## What all scopes bind -/

/-- Every value that a scope binds satisfies `p`. -/
def Binds (p : Value → Bool) (h : Heap) : Prop := ∀ i, ∀ b ∈ (h.scope i).bindings, p b.2

namespace Binds

variable {p : Value → Bool} {h : Heap}

theorem empty (p : Value → Bool) : Heap.empty.Binds p := by
  intro i b hb
  rw [Heap.scope_of_nextId_le _ (Nat.zero_le i)] at hb
  simp at hb

theorem addOutermost (hh : h.Binds p) : h.addOutermost.Binds p := by
  intro i b hb
  rw [Heap.scope_addOutermost] at hb
  exact hh i b hb

theorem addInside (hh : h.Binds p) (i : ScopeId) : (h.addInside i).Binds p :=
  fun j b hb => hh j b (mem_bindings_addInside hb)

theorem bind (hh : h.Binds p) (i : ScopeId) (name : String) {v : Value} (hv : p v) :
    (h.bind i name v).Binds p := by
  intro j b hb
  rcases mem_bindings_bind hb with rfl | hold
  · exact hv
  · exact hh j b hold

theorem bindAll (hh : h.Binds p) (i : ScopeId) {bs : List (String × Value)}
    (hbs : ∀ b ∈ bs, p b.2) : (h.bindAll i bs).Binds p := by
  intro j b hb
  rcases mem_bindings_bindAll hb with hnew | hold
  · exact hbs b hnew
  · exact hh j b hold

/-- What a name is found to be bound to satisfies `p`. -/
theorem find? (hh : h.Binds p) {i : ScopeId} {name : String} {v : Value}
    (hv : h.find? i name = some v) : p v := by
  obtain ⟨j, hmem⟩ := exists_mem_bindings_of_find? hv
  exact hh j _ hmem

end Binds

end Heap

end Scriptlet
