import Scriptlet.Proofs.Eval.Image

/-!
# Runs that come to the same points

Two trees that differ in places only are evaluated in the same way: one run comes to what the other
comes to, tree by tree, in the same scopes. So places can be used as labels. To know where a run
comes to, label the tree as one likes and look at the labels that the run comes to.

* `Matched`: two machines that differ in places only.
* `Matched.run`: trees that differ in places only take them to such machines.
* `Comes.matched`, `Calls.matched`: what is evaluated for the one is evaluated for the other.
* `Visits.matched`: and so for whole runs.
-/

namespace Scriptlet.Eval

open Syntax (Node)
open Syntax.Node (unplaced unplacedAll_eq_map unplacedIn_eq_map)

/-! ## Machines -/

/-- Two machines that differ in places only, with no fault in any scope. -/
structure Matched (m m₁ : Machine) : Prop where
  same : m₁.unplaced = m.unplaced
  faultless : m.heap.Faultless

variable {maxDepth : Nat} {m m' m₁ : Machine} {i i' : ScopeId}

theorem faultless_evalNode (hm : m.heap.Faultless) (maxDepth budget : Nat) (n : Node)
    (i : ScopeId) : (evalNode maxDepth budget n i m).2.heap.Faultless := by
  obtain ⟨hrun, hheap, -⟩ := agrees_evalNode maxDepth budget _ n i m rfl hm
  rw [hrun]
  exact hheap

namespace Matched

theorem faultless_right (h : Matched m m₁) : m₁.heap.Faultless := by
  refine Heap.faultless_unplaced_iff.1 ?_
  have hheap : m₁.heap.unplaced = m.heap.unplaced := congrArg Machine.heap h.same
  rw [hheap]
  exact Heap.faultless_unplaced_iff.2 h.faultless

theorem nextId (h : Matched m m₁) : m₁.heap.nextId = m.heap.nextId := by
  have hsize := congrArg (fun k : Machine => k.heap.nextId) h.same
  simpa [Machine.unplaced, Heap.nextId_unplaced] using hsize

theorem depth (h : Matched m m₁) : m₁.depth = m.depth := by
  have hdepth : m₁.unplaced.depth = m.unplaced.depth := by rw [h.same]
  exact hdepth

theorem printed (h : Matched m m₁) : m₁.printed = m.printed := by
  have hprinted : m₁.unplaced.printed = m.unplaced.printed := by rw [h.same]
  exact hprinted

theorem scope (h : Matched m m₁) (i : ScopeId) :
    (m₁.heap.scope i).view id = (m.heap.scope i).view id := by
  have hheap : m₁.heap.unplaced = m.heap.unplaced := congrArg Machine.heap h.same
  rw [← Heap.scope_unplaced, ← Heap.scope_unplaced, hheap]

/-- The scopes of both stand inside one another in the same way. -/
theorem chain (h : Matched m m₁) (i : ScopeId) : m₁.heap.chain i = m.heap.chain i := by
  have haround := congrArg Scope.around (h.scope i)
  simp only [Scope.view, List.map_id_fun, id_eq] at haround
  rw [Heap.chain, Heap.chain, haround]

/-- One more active node on both sides. -/
theorem nested (h : Matched m m₁) :
    Matched { m with nesting := m.nesting + 1 } { m₁ with nesting := m₁.nesting + 1 } := by
  refine ⟨?_, h.faultless⟩
  have hsame := congrArg (fun k : Machine => { k with nesting := k.nesting + 1 }) h.same
  exact hsame

/-- **Trees that differ in places only do the same.** -/
theorem run (h : Matched m m₁) {budget : Nat} {n n₁ : Node} (hn : n₁.unplaced = n.unplaced)
    {v : Value} (hrun : evalNode maxDepth budget n i m = (.ok v, m')) :
    ∃ v₁ m₁', evalNode maxDepth budget n₁ i m₁ = (.ok v₁, m₁') ∧ v₁.view id = v.view id ∧
      Matched m' m₁' := by
  have hplain := evalNode_unplaced h.faultless maxDepth budget n i
  have hother := evalNode_unplaced h.faultless_right maxDepth budget n₁ i
  have hheap := faultless_evalNode h.faultless maxDepth budget n i
  rw [hrun] at hheap
  rw [hn, h.same, hplain, hrun] at hother
  rcases hrun₁ : evalNode maxDepth budget n₁ i m₁ with ⟨err | v₁, m₁'⟩ <;> rw [hrun₁] at hother
  · cases congrArg Prod.fst hother
  · obtain ⟨hresult, hafter⟩ := Prod.mk.inj hother
    exact ⟨v₁, m₁', rfl, (Except.ok.inj hresult).symm, hafter.symm, hheap⟩

end Matched

/-! ## Lists of trees -/

/-- A test that does not look at places. -/
def Blind (stop : Value → Bool) : Prop := ∀ v, stop (v.view id) = stop v

theorem blind_stops : Blind Value.stops := by
  intro v
  cases v <;> rfl

theorem blind_isFault : Blind Value.isFault := by
  intro v
  cases v <;> rfl

theorem blind_truthy : Blind Value.truthy := Value.truthy_view id

theorem Blind.eq_of_view {stop : Value → Bool} (h : Blind stop) {v v₁ : Value}
    (hv : v₁.view id = v.view id) : stop v₁ = stop v := by
  rw [← h v₁, hv, h v]

variable {budget : Nat} {e e₁ : Node} {es es₁ : List Node}

/-- The trees of two lists that differ in places only are come to in the same way. -/
theorem Comes.matched {stop : Value → Bool} (hstop : Blind stop)
    (hcomes : Comes stop (evalNode maxDepth budget · i) es m e m')
    (hes : es₁.map unplaced = es.map unplaced) (hm : Matched m m₁) :
    ∃ e₁ m₁', Comes stop (evalNode maxDepth budget · i) es₁ m₁ e₁ m₁' ∧
      e₁.unplaced = e.unplaced ∧ Matched m' m₁' := by
  induction hcomes generalizing es₁ m₁ with
  | here =>
    obtain ⟨e₁, rest, rfl, he, -⟩ := List.map_eq_cons_iff.1 hes
    exact ⟨e₁, m₁, .here, he, hm⟩
  | later hrun hgoes _ ih =>
    obtain ⟨e₁, rest, rfl, he, hrest⟩ := List.map_eq_cons_iff.1 hes
    obtain ⟨v₁, m₂, hrun₁, hv, hm₂⟩ := hm.run he hrun
    obtain ⟨e₂, m₃, hcomes₁, hsame⟩ := ih hrest hm₂
    exact ⟨e₂, m₃, .later hrun₁ ((hstop.eq_of_view hv).trans hgoes) hcomes₁, hsame⟩

/-- All arguments have values if the first one has one that is no fault, and the others do. -/
theorem evalArguments_cons_eq_ok_iff {eval : Node → Eval Value} {vs : List Value} :
    evalArguments eval (e :: es) m = (.ok (.ok vs), m') ↔
      ∃ v m₁ rest, eval e m = (.ok v, m₁) ∧ v.isFault = false ∧
        evalArguments eval es m₁ = (.ok (.ok rest), m') ∧ vs = v :: rest := by
  rw [evalArguments, bind_run]
  constructor
  · intro hrun
    rcases he : eval e m with ⟨err | v, m₁⟩ <;> rw [he] at hrun
    · cases hrun
    · cases v with
      | fault f => cases hrun
      | _ =>
        dsimp only at hrun
        rw [bind_run] at hrun
        rcases hes : evalArguments eval es m₁ with ⟨err | (f | rest), m₂⟩ <;> rw [hes] at hrun <;>
          cases hrun
        exact ⟨_, m₁, rest, rfl, rfl, hes, rfl⟩
  · rintro ⟨v, m₁, rest, he, hfault, hes, rfl⟩
    rw [he]
    cases v with
    | fault f => cases hfault
    | _ =>
      dsimp only
      rw [bind_run, hes]
      rfl

theorem Matched.arguments (hm : Matched m m₁) (hes : es₁.map unplaced = es.map unplaced)
    {vs : List Value}
    (hrun : evalArguments (evalNode maxDepth budget · i) es m = (.ok (.ok vs), m')) :
    ∃ vs₁ m₁', evalArguments (evalNode maxDepth budget · i) es₁ m₁ = (.ok (.ok vs₁), m₁') ∧
      vs₁.map (Value.view id) = vs.map (Value.view id) ∧ Matched m' m₁' := by
  induction es generalizing es₁ m m₁ vs with
  | nil =>
    rw [List.map_nil, List.map_eq_nil_iff] at hes
    subst hes
    cases hrun
    exact ⟨[], m₁, rfl, rfl, hm⟩
  | cons e es ih =>
    obtain ⟨e₁, rest₁, rfl, he, hrest⟩ := List.map_eq_cons_iff.1 hes
    obtain ⟨v, m₂, rest, hhead, hfault, htail, rfl⟩ := evalArguments_cons_eq_ok_iff.1 hrun
    obtain ⟨v₁, m₃, hhead₁, hv, hm₂⟩ := hm.run he hhead
    obtain ⟨vs₁, m₄, htail₁, hvs, hm'⟩ := ih hm₂ hrest htail
    have hfault₁ := (blind_isFault.eq_of_view hv).trans hfault
    refine ⟨v₁ :: vs₁, m₄, evalArguments_cons_eq_ok_iff.2 ⟨v₁, m₃, vs₁, hhead₁, hfault₁, htail₁, rfl⟩,
      ?_, hm'⟩
    rw [List.map_cons, List.map_cons, hv, hvs]

/-! ## One tree -/

theorem Machine.unplaced_entered (m : Machine) (scope : ScopeId) (params : List Node)
    (args : List Value) :
    (m.entered scope params args).unplaced =
      m.unplaced.entered scope (params.map Node.unplaced) (args.map (Value.view id)) := by
  have himage := Walk.image_unplaced m.heap [] []
  have hinside := (himage.addInside scope).bindAll m.heap.nextId (bindings params args)
  have hheap := hinside.heap_eq
  unfold entered unplaced
  rw [bindings_view, Heap.nextId_unplaced]
  dsimp only at hheap ⊢
  rw [← hheap]
  rfl

theorem faultless_of_evalArguments (hm : m.heap.Faultless) {vs : List Value}
    (hrun : evalArguments (evalNode maxDepth budget · i) es m = (.ok (.ok vs), m')) :
    ∀ v ∈ vs, v.faultless := by
  have hagrees := agrees_evalArguments
    (fun e => agrees_evalNode maxDepth budget m.depth e i) es m rfl hm
  obtain ⟨hact, -, hsound⟩ := hagrees
  rw [hrun] at hact
  refine hsound vs ?_
  rcases hwalk : (es.mapM (Walk.node maxDepth budget m.depth · i) m.world).1 with (f | err) | vs' <;>
    rw [hwalk] at hact <;> cases hact
  rfl

/-- The bodies of functions that differ in places only are entered in the same way. -/
theorem Matched.entered (hm : Matched m m₁) {params params₁ : List Node}
    (hparams : params₁.map unplaced = params.map unplaced) {vs vs₁ : List Value}
    (hvs : vs₁.map (Value.view id) = vs.map (Value.view id)) (hsound : ∀ v ∈ vs, v.faultless)
    (scope : ScopeId) : Matched (m.entered scope params vs) (m₁.entered scope params₁ vs₁) := by
  refine ⟨?_, (hm.faultless.addInside scope).bindAll _ (forall_mem_bindings hsound)⟩
  rw [Machine.unplaced_entered, Machine.unplaced_entered, hm.same, hparams, hvs]

variable {n n' n₁ : Node}

/-- What is evaluated for a tree is evaluated, up to places, for every tree that differs from it in
places only. -/
theorem Calls.matched (hcalls : Calls maxDepth (evalNode maxDepth budget) n i m n' i' m')
    (hn : n₁.unplaced = n.unplaced) (hm : Matched m m₁) :
    ∃ n₁' m₁', Calls maxDepth (evalNode maxDepth budget) n₁ i m₁ n₁' i' m₁' ∧
      n₁'.unplaced = n'.unplaced ∧ Matched m' m₁' := by
  cases hcalls with
  | program hcomes =>
    cases n₁ with
    | program _ ss₁ =>
      simp only [unplaced, unplacedAll_eq_map, Node.program.injEq, true_and] at hn
      obtain ⟨e₁, m₁', hcomes₁, hsame⟩ := hcomes.matched blind_stops hn hm
      exact ⟨e₁, m₁', .program hcomes₁, hsame⟩
    | _ => cases hn
  | block hcomes =>
    cases n₁ with
    | block _ ss₁ =>
      simp only [unplaced, unplacedAll_eq_map, Node.block.injEq, true_and] at hn
      obtain ⟨e₁, m₁', hcomes₁, hsame⟩ := hcomes.matched blind_stops hn hm
      exact ⟨e₁, m₁', .block hcomes₁, hsame⟩
    | _ => cases hn
  | statement =>
    cases n₁ with
    | statement _ e₁ => exact ⟨e₁, m₁, .statement, (Node.statement.inj hn).2, hm⟩
    | _ => cases hn
  | binding =>
    cases n₁ with
    | binding _ _ e₁ => exact ⟨e₁, m₁, .binding, (Node.binding.inj hn).2.2, hm⟩
    | _ => cases hn
  | returning =>
    cases n₁ with
    | returning _ e₁ => exact ⟨e₁, m₁, .returning, (Node.returning.inj hn).2, hm⟩
    | _ => cases hn
  | unary =>
    cases n₁ with
    | unary _ _ e₁ => exact ⟨e₁, m₁, .unary, (Node.unary.inj hn).2.2, hm⟩
    | _ => cases hn
  | left =>
    cases n₁ with
    | binary _ l₁ _ r₁ => exact ⟨l₁, m₁, .left, (Node.binary.inj hn).2.1, hm⟩
    | _ => cases hn
  | right hl hfault =>
    cases n₁ with
    | binary _ l₁ _ r₁ =>
      obtain ⟨-, hleft, -, hright⟩ := Node.binary.inj hn
      obtain ⟨v₁, m₂, hl₁, hv, hm₂⟩ := hm.run hleft hl
      exact ⟨r₁, m₂, .right hl₁ ((blind_isFault.eq_of_view hv).trans hfault), hright, hm₂⟩
    | _ => cases hn
  | condition =>
    cases n₁ with
    | conditional _ c₁ _ _ => exact ⟨c₁, m₁, .condition, (Node.conditional.inj hn).2.1, hm⟩
    | _ => cases hn
  | consequence hc hfault htruthy =>
    cases n₁ with
    | conditional _ c₁ t₁ _ =>
      obtain ⟨-, hcond, hthen, -⟩ := Node.conditional.inj hn
      obtain ⟨v₁, m₂, hc₁, hv, hm₂⟩ := hm.run hcond hc
      have hfault₁ := (blind_isFault.eq_of_view hv).trans hfault
      have htruthy₁ := (blind_truthy.eq_of_view hv).trans htruthy
      exact ⟨t₁, m₂, .consequence hc₁ hfault₁ htruthy₁, hthen, hm₂⟩
    | _ => cases hn
  | alternative hc hfault htruthy =>
    cases n₁ with
    | conditional _ c₁ _ e₁ =>
      obtain ⟨-, hcond, -, helse⟩ := Node.conditional.inj hn
      rw [unplacedIn_eq_map, unplacedIn_eq_map, Option.map_some, Option.map_eq_some_iff] at helse
      obtain ⟨e₂, rfl, helse⟩ := helse
      obtain ⟨v₁, m₂, hc₁, hv, hm₂⟩ := hm.run hcond hc
      have hfault₁ := (blind_isFault.eq_of_view hv).trans hfault
      have htruthy₁ := (blind_truthy.eq_of_view hv).trans htruthy
      exact ⟨e₂, m₂, .alternative hc₁ hfault₁ htruthy₁, helse, hm₂⟩
    | _ => cases hn
  | callee =>
    cases n₁ with
    | call _ f₁ _ => exact ⟨f₁, m₁, .callee, (Node.call.inj hn).2.1, hm⟩
    | _ => cases hn
  | argument hf hfault hcomes =>
    cases n₁ with
    | call _ f₁ args₁ =>
      simp only [unplaced, unplacedAll_eq_map, Node.call.injEq, true_and] at hn
      obtain ⟨v₁, m₂, hf₁, hv, hm₂⟩ := hm.run hn.1 hf
      have hfault₁ := (blind_isFault.eq_of_view hv).trans hfault
      obtain ⟨e₁, m₃, hcomes₁, hsame⟩ := hcomes.matched blind_isFault hn.2 hm₂
      exact ⟨e₁, m₃, .argument hf₁ hfault₁ hcomes₁, hsame⟩
    | _ => cases hn
  | body hf hargs harity hdepth =>
    cases n₁ with
    | call _ f₁ args₁ =>
      simp only [unplaced, unplacedAll_eq_map, Node.call.injEq, true_and] at hn
      obtain ⟨v₁, m₂, hf₁, hv, hm₂⟩ := hm.run hn.1 hf
      obtain ⟨vs₁, m₃, hargs₁, hvs, hm₃⟩ := hm₂.arguments hn.2 hargs
      cases v₁ with
      | function params₁ body₁ scope₁ =>
        simp only [Value.view, Value.function.injEq, id_eq] at hv
        obtain ⟨hparams, hbody, rfl⟩ := hv
        have harity₁ : vs₁.length = params₁.length := by
          have hlength := congrArg List.length hvs
          have hlength' := congrArg List.length hparams
          simp only [List.length_map] at hlength hlength'
          omega
        have hdepth₁ : m₃.depth < maxDepth := hm₃.depth ▸ hdepth
        have hsound := faultless_of_evalArguments hm₂.faultless hargs
        rw [← hm₃.nextId]
        exact ⟨body₁, _, .body hf₁ hargs₁ harity₁ hdepth₁, hbody,
          hm₃.entered hparams hvs hsound scope₁⟩
      | _ => cases hv
    | _ => cases hn

/-! ## Whole runs -/

/-- **Runs of trees that differ in places only come to the same**: the same trees up to places, in
the same scopes, with the same machines up to places. -/
theorem Visits.matched {b b' : Nat} (hvisits : Visits maxDepth b n i m b' n' i' m')
    (hn : n₁.unplaced = n.unplaced) (hm : Matched m m₁) :
    ∃ n₁' m₁', Visits maxDepth b n₁ i m₁ b' n₁' i' m₁' ∧ n₁'.unplaced = n'.unplaced ∧
      Matched m' m₁' := by
  induction hvisits generalizing n₁ m₁ with
  | here => exact ⟨n₁, m₁, .here, hn, hm⟩
  | inside hcalls _ ih =>
    obtain ⟨n₂, m₂, hcalls₁, hn₂, hm₂⟩ := hcalls.matched hn hm.nested
    obtain ⟨n₃, m₃, hvisits₁, hsame⟩ := ih hn₂ hm₂
    exact ⟨n₃, m₃, .inside hcalls₁ hvisits₁, hsame⟩

end Scriptlet.Eval
