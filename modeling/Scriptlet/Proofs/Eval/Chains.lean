import Scriptlet.Proofs.Eval.Heap

/-!
# Scopes inside scopes

A scope is outermost, or it stands right inside a scope that is older than it. So the way outwards,
from each scope to the one right around it, ends, and comes to no scope twice.

* `Heap.Outward`: the scopes on the way outwards, one after the other.
* `Heap.Linked`: every scope is outermost or stands right inside an older one.
* `Linked.outward`, `Linked.nodup_chain`: then the chain of a scope is its way outwards, and has no
  scope twice.
* `Heap.Grows`: scopes are added, and stay where they are.
-/

namespace Scriptlet.Heap

variable {h h₁ h' : Heap}

/-! ## The way outwards -/

/-- The scope right around a scope, if there is one. -/
def outer? (h : Heap) (i : ScopeId) : Option ScopeId := (h.scope i).around.head?

/-- The scopes on the way outwards from a scope, which comes first. -/
inductive Outward (h : Heap) : ScopeId → List ScopeId → Prop
  | outermost {i : ScopeId} : h.outer? i = none → Outward h i [i]
  | inside {i o : ScopeId} {is : List ScopeId} :
      h.outer? i = some o → Outward h o is → Outward h i (i :: is)

/-- Every scope is outermost, or stands inside an older scope and those around that. -/
def Linked (h : Heap) : Prop :=
  ∀ i < h.nextId, (h.scope i).around = [] ∨ ∃ o < i, (h.scope i).around = h.chain o

namespace Linked

/-- **The chain of a scope is its way outwards**, by induction on the age of the scope. -/
theorem outward (hl : h.Linked) : ∀ i < h.nextId, h.Outward i (h.chain i) := by
  intro i
  induction i using Nat.strongRecOn with
  | ind i ih =>
    intro hi
    rcases hl i hi with hnone | ⟨o, ho, haround⟩
    · have houter : h.outer? i = none := by rw [outer?, hnone]; rfl
      rw [chain, hnone]
      exact .outermost houter
    · have houter : h.outer? i = some o := by rw [outer?, haround]; rfl
      rw [chain, haround]
      exact .inside houter (ih o ho (Nat.lt_trans ho hi))

/-- The scopes around a scope are older than it. -/
theorem lt_of_mem_around (hl : h.Linked) :
    ∀ i < h.nextId, ∀ j ∈ (h.scope i).around, j < i := by
  intro i
  induction i using Nat.strongRecOn with
  | ind i ih =>
    intro hi j hj
    rcases hl i hi with hnone | ⟨o, ho, haround⟩
    · rw [hnone] at hj
      cases hj
    · rw [haround] at hj
      rcases List.mem_cons.1 hj with rfl | hfar
      · exact ho
      · exact Nat.lt_trans (ih o ho (Nat.lt_trans ho hi) j hfar) ho

theorem lt_of_mem_chain (hl : h.Linked) {i j : ScopeId} (hi : i < h.nextId) (hj : j ∈ h.chain i) :
    j < h.nextId := by
  rcases List.mem_cons.1 hj with rfl | haround
  · exact hi
  · exact Nat.lt_trans (hl.lt_of_mem_around i hi j haround) hi

/-- **No scope stands inside itself.** -/
theorem nodup_chain (hl : h.Linked) : ∀ i < h.nextId, (h.chain i).Nodup := by
  intro i
  induction i using Nat.strongRecOn with
  | ind i ih =>
    intro hi
    have hself : i ∉ (h.scope i).around :=
      fun hmem => Nat.lt_irrefl i (hl.lt_of_mem_around i hi i hmem)
    refine List.nodup_cons.2 ⟨hself, ?_⟩
    rcases hl i hi with hnone | ⟨o, ho, haround⟩
    · rw [hnone]
      exact List.nodup_nil
    · rw [haround]
      exact ih o ho (Nat.lt_trans ho hi)

theorem of_around (hl : h.Linked) (hsize : h'.nextId = h.nextId)
    (haround : ∀ i, (h'.scope i).around = (h.scope i).around) : h'.Linked := by
  intro i hi
  rw [hsize] at hi
  rw [haround i]
  rcases hl i hi with hnone | ⟨o, ho, hchain⟩
  · exact .inl hnone
  · refine .inr ⟨o, ho, ?_⟩
    rw [hchain, chain, chain, haround o]

end Linked

/-! ## What moves no scope -/

theorem around_bind (h : Heap) (i : ScopeId) (name : String) (v : Value) (j : ScopeId) :
    ((h.bind i name v).scope j).around = (h.scope j).around := by
  rcases scope_bind_cases h i name v j with hsame | hbound
  · rw [hsame]
  · rw [hbound]
    rfl

theorem around_bindAll (h : Heap) (i : ScopeId) (bs : List (String × Value)) (j : ScopeId) :
    ((h.bindAll i bs).scope j).around = (h.scope j).around := by
  induction bs generalizing h with
  | nil => rfl
  | cons b bs ih => exact (ih (h.bind i b.1 b.2)).trans (around_bind h i b.1 b.2 j)

theorem Linked.bind (hl : h.Linked) (i : ScopeId) (name : String) (v : Value) :
    (h.bind i name v).Linked :=
  hl.of_around (nextId_bind h i name v) (around_bind h i name v)

theorem Linked.bindAll (hl : h.Linked) (i : ScopeId) (bs : List (String × Value)) :
    (h.bindAll i bs).Linked :=
  hl.of_around (nextId_bindAll h i bs) (around_bindAll h i bs)

theorem Linked.addInside (hl : h.Linked) {i : ScopeId} (hi : i < h.nextId) :
    (h.addInside i).Linked := by
  have hold : ∀ j < h.nextId, (h.addInside i).scope j = h.scope j :=
    fun j hj => scope_addInside_of_ne h (Nat.ne_of_lt hj) i
  intro j hj
  rw [nextId_addInside] at hj
  by_cases hnew : j = h.nextId
  · subst hnew
    refine .inr ⟨i, hi, ?_⟩
    rw [scope_addInside_self, chain, chain, hold i hi]
  · have hj' : j < h.nextId := Nat.lt_of_le_of_ne (Nat.le_of_lt_succ hj) hnew
    rw [hold j hj']
    rcases hl j hj' with hnone | ⟨o, ho, haround⟩
    · exact .inl hnone
    · refine .inr ⟨o, ho, ?_⟩
      rw [haround, chain, chain, hold o (Nat.lt_trans ho hj')]

/-- One scope that is outermost. -/
theorem linked_outermost : Heap.empty.addOutermost.Linked := by
  intro i _
  left
  rw [scope_addOutermost, scope_of_nextId_le _ (Nat.zero_le i)]

/-! ## Growing heaps -/

/-- Scopes may have been added, and those that were there stand inside the same scopes as before. -/
structure Grows (h h' : Heap) : Prop where
  size : h.nextId ≤ h'.nextId
  around : ∀ i < h.nextId, (h'.scope i).around = (h.scope i).around

namespace Grows

theorem refl (h : Heap) : Grows h h := ⟨Nat.le_refl _, fun _ _ => rfl⟩

theorem trans (hg : Grows h h₁) (hg' : Grows h₁ h') : Grows h h' := by
  refine ⟨Nat.le_trans hg.size hg'.size, fun i hi => ?_⟩
  rw [hg'.around i (Nat.lt_of_lt_of_le hi hg.size), hg.around i hi]

theorem bind (h : Heap) (i : ScopeId) (name : String) (v : Value) : Grows h (h.bind i name v) :=
  ⟨by simp, fun j _ => around_bind h i name v j⟩

theorem bindAll (h : Heap) (i : ScopeId) (bs : List (String × Value)) :
    Grows h (h.bindAll i bs) :=
  ⟨by simp, fun j _ => around_bindAll h i bs j⟩

theorem addInside (h : Heap) (i : ScopeId) : Grows h (h.addInside i) := by
  refine ⟨by simp, fun j hj => ?_⟩
  rw [scope_addInside_of_ne h (Nat.ne_of_lt hj)]

end Grows

end Scriptlet.Heap
