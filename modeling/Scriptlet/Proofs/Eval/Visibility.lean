import Scriptlet.Proofs.Eval.Chains

/-!
# Where a binding is seen

A name is looked up from a scope outwards, until a scope binds it. So what a scope binds is seen
from every scope that has it on its way outwards with no other binding of the name before it, and
from nowhere else. This holds whatever scopes were added and whatever names were bound before.

* `Heap.Built`: one outermost scope, and what comes of it as scopes are added and names are bound.
* `Heap.Lookup`: looking a name up, one scope after the other.
* `Heap.Nearest`: the first scope on the way outwards that binds a name.
* `Linked.lookup_iff`: looking a name up ends, with what `find?` gives.
* `Linked.find?_bind_of_nearest`, `Linked.find?_bind_of_not_nearest`: who sees a binding.
* `Linked.find?_addInside_self`, `Linked.find?_addInside_of_lt`: what a new scope sees.
* `lookup_bind_of_built`: the main statement.
-/

namespace Scriptlet.Heap

variable {h h' : Heap} {i j : ScopeId} {is js : List ScopeId} {name other : String} {v : Value}
  {r r' : Option Value}

/-! ## Scopes that are added one after the other -/

/-- One outermost scope, and what comes of it as scopes are added inside those that are there and
names are bound in them. -/
inductive Built : Heap → Prop
  | outermost : Built Heap.empty.addOutermost
  | addInside {h : Heap} {i : ScopeId} : Built h → i < h.nextId → Built (h.addInside i)
  | bind {h : Heap} {i : ScopeId} (name : String) (v : Value) :
      Built h → i < h.nextId → Built (h.bind i name v)

/-- A scope is added inside an older one, and stays where it is. -/
theorem Built.linked (hh : h.Built) : h.Linked := by
  induction hh with
  | outermost => exact linked_outermost
  | addInside _ hi ih => exact ih.addInside hi
  | bind name v _ _ ih => exact ih.bind _ name v

/-! ## One way outwards -/

theorem Outward.unique (his : h.Outward j is) (hjs : h.Outward j js) : is = js := by
  induction his generalizing js with
  | outermost hnone =>
    cases hjs with
    | outermost => rfl
    | inside hsome => rw [hnone] at hsome; cases hsome
  | inside hsome _ ih =>
    cases hjs with
    | outermost hnone => rw [hnone] at hsome; cases hsome
    | inside hsome' hrest =>
      have ho := Option.some.inj (hsome.symm.trans hsome')
      subst ho
      rw [ih hrest]

theorem Linked.chain_eq (hl : h.Linked) (hj : j < h.nextId) (his : h.Outward j is) :
    h.chain j = is :=
  (hl.outward j hj).unique his

theorem chain_bind (h : Heap) (i : ScopeId) (name : String) (v : Value) (j : ScopeId) :
    (h.bind i name v).chain j = h.chain j := by
  rw [chain, chain, around_bind]

/-! ## Looking a name up -/

/-- Looking a name up: a scope that binds it answers; one that does not passes the question on to
the scope right around it, and the outermost one has nobody to ask. -/
inductive Lookup (h : Heap) (name : String) : ScopeId → Option Value → Prop
  | here {i : ScopeId} {v : Value} :
      (h.scope i).find? name = some v → Lookup h name i (some v)
  | nowhere {i : ScopeId} :
      (h.scope i).find? name = none → h.outer? i = none → Lookup h name i none
  | further {i o : ScopeId} {r : Option Value} :
      (h.scope i).find? name = none → h.outer? i = some o → Lookup h name o r → Lookup h name i r

theorem Lookup.unique (hr : h.Lookup name j r) (hr' : h.Lookup name j r') : r = r' := by
  induction hr with
  | here hv =>
    cases hr' with
    | here hv' => rw [← hv, ← hv']
    | nowhere hfree => rw [hfree] at hv; cases hv
    | further hfree => rw [hfree] at hv; cases hv
  | nowhere hfree hnone =>
    cases hr' with
    | here hv => rw [hfree] at hv; cases hv
    | nowhere => rfl
    | further _ hsome => rw [hnone] at hsome; cases hsome
  | further hfree hsome _ ih =>
    cases hr' with
    | here hv => rw [hfree] at hv; cases hv
    | nowhere _ hnone => rw [hnone] at hsome; cases hsome
    | further _ hsome' hrest =>
      have ho := Option.some.inj (hsome.symm.trans hsome')
      subst ho
      exact ih hrest

/-- Where the way outwards ends, so does looking a name up on it. -/
theorem Outward.lookup (his : h.Outward j is) (name : String) :
    h.Lookup name j (is.findSome? fun k => (h.scope k).find? name) := by
  induction his with
  | @outermost i hnone =>
    cases hfind : (h.scope i).find? name with
    | none =>
      simp only [List.findSome?_cons, List.findSome?_nil, hfind]
      exact .nowhere hfind hnone
    | some v =>
      simp only [List.findSome?_cons, hfind]
      exact .here hfind
  | @inside i o is hsome _ ih =>
    cases hfind : (h.scope i).find? name with
    | none =>
      simp only [List.findSome?_cons, hfind]
      exact .further hfind hsome ih
    | some v =>
      simp only [List.findSome?_cons, hfind]
      exact .here hfind

/-- **Looking a name up ends**, and only with what `find?` gives. -/
theorem Linked.lookup_iff (hl : h.Linked) (hj : j < h.nextId) :
    h.Lookup name j r ↔ r = h.find? j name := by
  have hlookup : h.Lookup name j (h.find? j name) := (hl.outward j hj).lookup name
  constructor
  · intro hr
    exact hr.unique hlookup
  · rintro rfl
    exact hlookup

theorem find?_eq_none_iff :
    h.find? j name = none ↔ ∀ k ∈ h.chain j, (h.scope k).find? name = none :=
  List.findSome?_eq_none_iff

/-- On a way through scopes that answer as before, a name is found as before. -/
theorem findSome?_eq_of_scopes
    (hsame : ∀ k ∈ is, (h'.scope k).find? name = (h.scope k).find? name) :
    (is.findSome? fun k => (h'.scope k).find? name) =
      is.findSome? fun k => (h.scope k).find? name := by
  induction is with
  | nil => rfl
  | cons k ks ih =>
    have hrest := ih fun l hmem => hsame l (List.mem_cons_of_mem k hmem)
    rw [List.findSome?_cons, List.findSome?_cons, hsame k List.mem_cons_self, hrest]

/-! ## Who sees a binding -/

/-- The first scope that binds a name, on the way outwards from `j`, is `i`. -/
def Nearest (h : Heap) (name : String) (j i : ScopeId) : Prop :=
  ∃ before beyond, h.Outward j (before ++ i :: beyond) ∧ ((h.scope i).find? name).isSome ∧
    ∀ k ∈ before, (h.scope k).find? name = none

/-- A name is found to be bound to what the nearest scope binds it to. -/
theorem Linked.find?_of_nearest (hl : h.Linked) (hj : j < h.nextId) (hi : h.Nearest name j i) :
    h.find? j name = (h.scope i).find? name := by
  obtain ⟨before, beyond, hway, hsome, hbefore⟩ := hi
  obtain ⟨v, hv⟩ := Option.isSome_iff_exists.1 hsome
  have hfree : before.findSome? (fun k => (h.scope k).find? name) = none :=
    List.findSome?_eq_none_iff.2 hbefore
  rw [find?, hl.chain_eq hj hway, List.findSome?_append, hfree, List.findSome?_cons, hv]
  rfl

theorem find?_scope_bind_self (hi : i < h.nextId) :
    ((h.bind i name v).scope i).find? name = some v := by
  rw [scope_bind_self h hi, Scope.find?_bind_self]

/-- **From where it is the nearest, a binding is seen.** -/
theorem Linked.find?_bind_of_nearest (hl : h.Linked) (hi : i < h.nextId) (hj : j < h.nextId)
    (hnearest : (h.bind i name v).Nearest name j i) : (h.bind i name v).find? j name = some v := by
  have hj' : j < (h.bind i name v).nextId := by rwa [nextId_bind]
  rw [(hl.bind i name v).find?_of_nearest hj' hnearest, find?_scope_bind_self hi]

theorem findSome?_bind_of_notMem (hi : i ∉ is) :
    (is.findSome? fun k => ((h.bind i name v).scope k).find? other) =
      is.findSome? fun k => (h.scope k).find? other := by
  refine findSome?_eq_of_scopes fun k hk => ?_
  have hne : k ≠ i := fun heq => hi (heq ▸ hk)
  rw [scope_bind_of_ne h hne]

/-- From no scope is another name found otherwise than before. -/
theorem find?_bind_of_ne (h : Heap) (i j : ScopeId) (v : Value) (hne : other ≠ name) :
    (h.bind i name v).find? j other = h.find? j other := by
  rw [find?, find?, chain_bind]
  refine findSome?_eq_of_scopes fun k _ => ?_
  rcases scope_bind_cases h i name v k with hsame | hbound
  · rw [hsame]
  · rw [hbound, Scope.find?_bind_of_ne _ v hne]

/-- **From where it is not the nearest, a binding is not seen**: the scope is not on the way at all,
or a scope before it binds the name. -/
theorem Linked.find?_bind_of_not_nearest (hl : h.Linked) (hi : i < h.nextId) (hj : j < h.nextId)
    (hnearest : ¬ (h.bind i name v).Nearest name j i) :
    (h.bind i name v).find? j name = h.find? j name := by
  rw [find?, find?, chain_bind]
  by_cases hmem : i ∈ h.chain j
  · obtain ⟨before, beyond, hway, hfirst⟩ := List.eq_append_cons_of_mem hmem
    have hout : (h.bind i name v).Outward j (before ++ i :: beyond) := by
      rw [← hway, ← chain_bind h i name v]
      exact (hl.bind i name v).outward j (by rwa [nextId_bind])
    have hbinds : (((h.bind i name v).scope i).find? name).isSome := by
      rw [find?_scope_bind_self hi]
      rfl
    -- what answers before the scope is asked is what answered before the change
    have hanswer : (before.findSome? fun k => (h.scope k).find? name) ≠ none := by
      rw [← findSome?_bind_of_notMem hfirst]
      intro hnone
      exact hnearest ⟨before, beyond, hout, hbinds, List.findSome?_eq_none_iff.1 hnone⟩
    obtain ⟨w, hw⟩ := Option.ne_none_iff_exists'.1 hanswer
    rw [hway, List.findSome?_append, List.findSome?_append, findSome?_bind_of_notMem hfirst, hw]
    rfl
  · exact findSome?_bind_of_notMem hmem

/-! ## What a new scope sees -/

theorem Linked.findSome?_addInside (hl : h.Linked) (hj : j < h.nextId) :
    ((h.chain j).findSome? fun k => ((h.addInside i).scope k).find? name) = h.find? j name := by
  refine findSome?_eq_of_scopes fun k hk => ?_
  have hold : k < h.nextId := hl.lt_of_mem_chain hj hk
  rw [scope_addInside_of_ne h (Nat.ne_of_lt hold)]

/-- A scope that was added sees what the scope right around it sees. -/
theorem Linked.find?_addInside_self (hl : h.Linked) (hi : i < h.nextId) :
    (h.addInside i).find? h.nextId name = h.find? i name := by
  have hchain : (h.addInside i).chain h.nextId = h.nextId :: h.chain i := by
    rw [chain, scope_addInside_self]
  have hempty : ((h.addInside i).scope h.nextId).find? name = none := by
    rw [scope_addInside_self]
    rfl
  rw [find?, hchain, List.findSome?_cons, hempty]
  exact hl.findSome?_addInside hi

/-- Older scopes do not see a scope that was added. -/
theorem Linked.find?_addInside_of_lt (hl : h.Linked) (hj : j < h.nextId) :
    (h.addInside i).find? j name = h.find? j name := by
  have hchain : (h.addInside i).chain j = h.chain j := by
    rw [chain, chain, scope_addInside_of_ne h (Nat.ne_of_lt hj)]
  rw [find?, hchain]
  exact hl.findSome?_addInside hj

/-! ## Scoping -/

/-- **A binding is seen exactly where scoping says.** However scopes were added and names were bound
before, the way outwards from a scope ends and has no scope twice; looking a name up on it ends too,
with one result, and finds nothing just if no scope on the way binds the name. One more scope sees
what the scope right around it sees. One more binding is seen from where its scope is the nearest
that binds the name. Nothing else is found otherwise than before. -/
theorem lookup_bind_of_built (hh : h.Built) :
    (∀ j < h.nextId, ∃ is, h.Outward j is ∧ is.Nodup ∧ ∀ name,
      (∀ r, h.Lookup name j r ↔ r = h.find? j name) ∧
      (h.find? j name = none ↔ ∀ k ∈ is, (h.scope k).find? name = none)) ∧
    (∀ i < h.nextId,
      let after := h.addInside i
      after.outer? h.nextId = some i ∧
      ∀ name, after.find? h.nextId name = h.find? i name ∧
        ∀ j < h.nextId, after.find? j name = h.find? j name) ∧
    ∀ i < h.nextId, ∀ name v,
      let after := h.bind i name v
      (after.scope i).find? name = some v ∧
      ∀ j < h.nextId, ∀ other,
        (other = name ∧ after.Nearest name j i → after.find? j other = some v) ∧
        (¬ (other = name ∧ after.Nearest name j i) → after.find? j other = h.find? j other) := by
  have hl := hh.linked
  refine ⟨fun j hj => ?_, fun i hi => ?_, fun i hi name v => ?_⟩
  · exact ⟨h.chain j, hl.outward j hj, hl.nodup_chain j hj,
      fun name => ⟨fun r => hl.lookup_iff hj, find?_eq_none_iff⟩⟩
  · refine ⟨?_, fun name => ⟨hl.find?_addInside_self hi, fun j hj => hl.find?_addInside_of_lt hj⟩⟩
    rw [outer?, scope_addInside_self]
    rfl
  · refine ⟨find?_scope_bind_self hi, fun j hj other => ⟨?_, fun hunseen => ?_⟩⟩
    · rintro ⟨rfl, hnearest⟩
      exact hl.find?_bind_of_nearest hi hj hnearest
    · by_cases hname : other = name
      · subst hname
        exact hl.find?_bind_of_not_nearest hi hj fun hnearest => hunseen ⟨rfl, hnearest⟩
      · exact find?_bind_of_ne h i j v hname

/-- Two scopes stand side by side in a scope that stands in the outermost one. The outermost one and
one of the two bind `x`. -/
def siblings : Heap :=
  (((Heap.empty.addOutermost.addInside 0).addInside 1).addInside 1).bind 0 "x" (.integer 1)
    |>.bind 2 "x" (.integer 2)

theorem built_siblings : siblings.Built :=
  .bind _ _ (.bind _ _ (.addInside (.addInside (.addInside .outermost
    (by decide)) (by decide)) (by decide)) (by decide)) (by decide)

/-- What the scope around the two binds is seen from the one that does not bind the name itself. -/
theorem lookup_bind_siblings :
    let after := siblings.bind 1 "x" (.integer 3)
    siblings.Built ∧ 3 < siblings.nextId ∧ siblings.Lookup "x" 3 (some (.integer 1)) ∧
      after.Nearest "x" 3 1 ∧ after.find? 3 "x" = some (.integer 3) ∧
      ¬ after.Nearest "x" 2 1 ∧ after.find? 2 "x" = siblings.find? 2 "x" ∧
      siblings.find? 2 "x" = some (.integer 2) := by
  intro after
  have hsees : after.Nearest "x" 3 1 := by
    refine ⟨[3], [0], .inside rfl (.inside rfl (.outermost rfl)), rfl, ?_⟩
    intro k hk
    rw [List.mem_singleton.1 hk]
    rfl
  have hhides : ¬ after.Nearest "x" 2 1 := by
    rintro ⟨before, beyond, hway, -, hbefore⟩
    have hchain : after.Outward 2 [2, 1, 0] := .inside rfl (.inside rfl (.outermost rfl))
    have hsplit := hway.unique hchain
    -- the scope that asks comes first, and binds the name
    cases before with
    | nil => cases hsplit
    | cons k ks =>
      have hk : k = 2 := (List.cons.inj hsplit).1
      subst hk
      have hnone := hbefore 2 List.mem_cons_self
      cases hnone
  obtain ⟨hlookup, -, hbind⟩ := lookup_bind_of_built built_siblings
  obtain ⟨is, -, -, hname⟩ := hlookup 3 (by decide)
  have hx := ((hname "x").1 (some (.integer 1))).2 rfl
  obtain ⟨-, hseen⟩ := hbind 1 (by decide) "x" (.integer 3)
  exact ⟨built_siblings, by decide, hx, hsees, (hseen 3 (by decide) "x").1 ⟨rfl, hsees⟩, hhides,
    (hseen 2 (by decide) "x").2 fun hnear => hhides hnear.2, rfl⟩

end Scriptlet.Heap
