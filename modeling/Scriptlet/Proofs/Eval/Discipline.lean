import Scriptlet.Proofs.Eval.Chains
import Scriptlet.Proofs.Eval.Faultless
import Scriptlet.Proofs.Eval.Visits
import Scriptlet.Proofs.Syntax.Shape

/-!
# Rules that every run keeps

A `Discipline` says which trees may be evaluated where so many scopes stand around, and which
integers and builtin functions may come of them. If it allows what stands under each tree that it
allows, then a run that starts with an allowed tree comes to no other: functions bring their bodies
to new scopes, but always right inside the scope that they were made in.

* `Discipline.admits`: the values that the rule allows.
* `Discipline.Holds`: scopes are linked, and bind allowed values only.
* `Discipline.Placed`: a tree is allowed in the scope that it is evaluated in.
* `obeys_evalNode`: a run keeps all that, and gives an allowed value or a fault.
* `Visits.placed`: what a run comes to is placed.
* `Machine.after`: the machine after programs that were run one after the other, which keep the rule.
-/

namespace Scriptlet

open Syntax (Node)

/-- A rule about runs. -/
structure Discipline where
  /-- The trees that may be evaluated in a scope with so many scopes around it. -/
  tree : Nat → Node → Prop
  /-- The integers that may arise. -/
  number : Int → Prop
  /-- The builtin functions that may arise. -/
  builtin : Builtin → Prop
  part {k : Nat} {n c : Node} : tree k n → c ∈ n.parts → tree k c
  body {k : Nat} {pos : Pos} {params : List Node} {b : Node} :
    tree k (.function pos params b) → tree (k + 1) b
  literal {k : Nat} {pos : Pos} {n : Int} : tree k (.integer pos n) → number n
  name {k : Nat} {pos : Pos} {text : String} {b : Builtin} :
    tree k (.identifier pos text) → Builtin.ofName? text = some b → builtin b
  wrapped (n : Int) : number (Word.wrap n)
  length (s : String) : builtin .len → number s.length

namespace Discipline

variable (D : Discipline)

/-- Whether a value is one that the rule allows: no fault, and if it is a function, one whose scope
exists and whose body is allowed right inside that. -/
def admits (h : Heap) : Value → Prop
  | .integer n => D.number n
  | .builtin b => D.builtin b
  | .returning v => admits h v
  | .fault _ => False
  | .function _ body scope => scope < h.nextId ∧ D.tree ((h.scope scope).around.length + 1) body
  | .boolean _ | .null | .string _ => True

/-- What a tree may come to: a fault, or a value that the rule allows. -/
def gives (h : Heap) (v : Value) : Prop := v.isFault ∨ D.admits h v

/-- The scopes are linked, and what they bind is allowed. -/
structure Holds (h : Heap) : Prop where
  linked : h.Linked
  admits : ∀ i, ∀ b ∈ (h.scope i).bindings, D.admits h b.2

/-- The scope exists, and the tree may be evaluated in it. -/
structure Placed (h : Heap) (i : ScopeId) (n : Node) : Prop where
  exists_scope : i < h.nextId
  tree : D.tree (h.scope i).around.length n

/-- The rule allows a tree that has no meaning. -/
def AllowsBare : Prop := ∃ k pos, D.tree k (.bare pos)

variable {D} {h h' : Heap} {i : ScopeId}

/-! ## Values -/

/-- A value that was allowed still is when scopes were added. -/
theorem admits_of_grows (hg : h.Grows h') {v : Value} (hv : D.admits h v) : D.admits h' v := by
  induction v with
  | function params body scope =>
    obtain ⟨hscope, hbody⟩ := hv
    refine ⟨Nat.lt_of_lt_of_le hscope hg.size, ?_⟩
    rwa [hg.around scope hscope]
  | returning v ih => exact ih hv
  | _ => exact hv

theorem admits_of_gives {v : Value} (hv : D.gives h v) (hfault : v.isFault = false) :
    D.admits h v := by
  rcases hv with hf | hv
  · rw [hfault] at hf
    cases hf
  · exact hv

theorem gives_arrived {v : Value} (hv : D.gives h v) : D.gives h v.arrived := by
  cases v with
  | returning v =>
    rcases hv with hf | hv
    · cases hf
    · exact .inr hv
  | _ => exact hv

theorem gives_onIntegers (l r : Int) (op : BinaryOp) : D.gives h (op.onIntegers l r) := by
  cases op with
  | add | sub | mul => exact .inr (D.wrapped _)
  | div =>
    unfold BinaryOp.onIntegers
    dsimp only
    cases Word.quotient? l r with
    | some q => exact .inr (D.wrapped q)
    | none => exact .inl rfl
  | pow =>
    unfold BinaryOp.onIntegers
    dsimp only
    cases hpower : Word.power l r with
    | ok n =>
      -- whatever the power of doubles is, a power that has a value is wrapped
      obtain ⟨n', rfl⟩ : ∃ n', n = Word.wrap n' := by
        unfold Word.power at hpower
        split at hpower
        · split at hpower
          · cases hpower
          · split at hpower
            · exact ⟨_, (Except.ok.inj hpower).symm⟩
            · cases hpower
        · cases hpower
      exact .inr (D.wrapped n')
    | error e => cases e <;> exact .inl rfl
  | lt | gt | le | ge | eq | ne => exact .inr trivial

theorem gives_binary (op : String) (l r : Value) : D.gives h (Value.binary op l r) := by
  unfold Value.binary
  split
  · rename_i v hv
    unfold Value.binary? at hv
    split at hv
    · obtain ⟨o, -, rfl⟩ := Option.map_eq_some_iff.1 hv
      exact gives_onIntegers _ _ o
    · obtain ⟨o, -, ho⟩ := Option.bind_eq_some_iff.1 hv
      cases o <;> simp [BinaryOp.onBooleans?] at ho <;> subst ho <;> exact .inr trivial
    · obtain ⟨o, -, ho⟩ := Option.bind_eq_some_iff.1 hv
      cases o <;> simp [BinaryOp.onStrings?] at ho <;> subst ho <;> exact .inr trivial
    · cases hv
  · split <;> exact .inl rfl

theorem gives_unary (op : String) (v : Value) : D.gives h (v.unary op) := by
  unfold Value.unary
  split
  · exact .inr trivial
  · cases v with
    | integer n => exact .inr (D.wrapped _)
    | _ => exact .inl rfl
  · exact .inl rfl

theorem gives_apply {b : Builtin} (hb : D.builtin b) (args : List Value) :
    D.gives h (b.apply args).1 := by
  unfold Builtin.apply
  split
  · exact .inr (D.length _ hb)
  · exact .inl rfl
  · exact .inr trivial
  · exact .inr trivial
  · exact .inl rfl

/-! ## Scopes -/

theorem Placed.of_grows {n : Node} (hn : D.Placed h i n) (hg : h.Grows h') : D.Placed h' i n := by
  refine ⟨Nat.lt_of_lt_of_le hn.exists_scope hg.size, ?_⟩
  rw [hg.around i hn.exists_scope]
  exact hn.tree

theorem Placed.part {n c : Node} (hn : D.Placed h i n) (hc : c ∈ n.parts) : D.Placed h i c :=
  ⟨hn.exists_scope, D.part hn.tree hc⟩

namespace Holds

theorem initial : D.Holds Heap.empty.addOutermost := by
  refine ⟨Heap.linked_outermost, fun i b hb => ?_⟩
  rw [Heap.scope_addOutermost, Heap.scope_of_nextId_le _ (Nat.zero_le i)] at hb
  cases hb

theorem bind (hh : D.Holds h) (i : ScopeId) (name : String) {v : Value} (hv : D.admits h v) :
    D.Holds (h.bind i name v) := by
  refine ⟨hh.linked.bind i name v, fun j b hb => ?_⟩
  refine admits_of_grows (Heap.Grows.bind h i name v) ?_
  rcases Heap.mem_bindings_bind hb with rfl | hold
  · exact hv
  · exact hh.admits j b hold

theorem find? (hh : D.Holds h) {name : String} {v : Value} (hv : h.find? i name = some v) :
    D.admits h v := by
  obtain ⟨j, hj⟩ := Heap.exists_mem_bindings_of_find? hv
  exact hh.admits j _ hj

end Holds

end Discipline

namespace Eval

variable {D : Discipline} {m m' : Machine}

/-- The scope of a call comes right inside that of its function, and its body is placed there. -/
theorem Machine.holds_entered (hm : D.Holds m.heap) {params : List Node} {body : Node}
    {scope : ScopeId} (hf : D.admits m.heap (.function params body scope)) {args : List Value}
    (hargs : ∀ v ∈ args, D.admits m.heap v) :
    D.Holds (m.entered scope params args).heap ∧
      m.heap.Grows (m.entered scope params args).heap ∧
      D.Placed (m.entered scope params args).heap m.heap.nextId body := by
  obtain ⟨hscope, hbody⟩ := hf
  have hg : m.heap.Grows (m.entered scope params args).heap :=
    (Heap.Grows.addInside m.heap scope).trans (Heap.Grows.bindAll _ _ _)
  refine ⟨⟨(hm.linked.addInside hscope).bindAll _ _, fun j b hb => ?_⟩, hg, ?_, ?_⟩
  · refine Discipline.admits_of_grows hg ?_
    rcases Heap.mem_bindings_bindAll hb with hnew | hold
    · exact forall_mem_bindings hargs b hnew
    · exact hm.admits j b (Heap.mem_bindings_addInside hold)
  · simp [Machine.entered]
  · have haround : ((m.entered scope params args).heap.scope m.heap.nextId).around =
        m.heap.chain scope := by
      unfold Machine.entered
      rw [Heap.around_bindAll, Heap.scope_addInside_self]
    rw [haround]
    exact hbody

/-! ## Computations that keep the rule -/

/-- With the machine `m`, the computation leaves scopes that keep the rule, takes none away, and
gives what satisfies `post`. It cannot go on only if the rule allows a tree with no meaning. -/
structure Obeys {α : Type} (D : Discipline) (post : Heap → α → Prop) (act : Eval α)
    (m : Machine) : Prop where
  holds : D.Holds (act m).2.heap
  grows : m.heap.Grows (act m).2.heap
  result : ∀ a, (act m).1 = .ok a → post (act m).2.heap a
  stuck : ∀ e, (act m).1 = .error e → D.AllowsBare

section

variable {α β : Type} {post : Heap → α → Prop} {post' : Heap → β → Prop}

theorem obeys_pure (hm : D.Holds m.heap) {a : α} (ha : post m.heap a) :
    Obeys D post (pure a) m := by
  refine ⟨hm, .refl _, ?_, ?_⟩
  · intro a' ha'
    cases ha'
    exact ha
  · intro e he
    cases he

theorem obeys_fault (hm : D.Holds m.heap) (f : Fault) : Obeys D D.gives (pure (.fault f)) m :=
  obeys_pure hm (.inl rfl)

theorem obeys_get {k : Machine → Eval α} (h : Obeys D post (k m) m) :
    Obeys D post (get >>= k) m :=
  ⟨h.holds, h.grows, h.result, h.stuck⟩

theorem Obeys.bind {act : Eval α} {k : α → Eval β} (h : Obeys D post act m)
    (hnext : ∀ a m₁, act m = (.ok a, m₁) → D.Holds m₁.heap → m.heap.Grows m₁.heap →
      post m₁.heap a → Obeys D post' (k a) m₁) : Obeys D post' (act >>= k) m := by
  obtain ⟨hheap, hg, hresult, hstuck⟩ := h
  rcases hrun : act m with ⟨err | a, m₁⟩ <;> rw [hrun] at hheap hg hresult hstuck
  · have hbind : (act >>= k) m = (.error err, m₁) := by rw [bind_run, hrun]
    constructor <;> rw [hbind]
    · exact hheap
    · exact hg
    · intro b hb
      cases hb
    · exact fun _ _ => hstuck err rfl
  · have hbind : (act >>= k) m = k a m₁ := by rw [bind_run, hrun]
    obtain ⟨hheap', hg', hresult', hstuck'⟩ := hnext a m₁ hrun hheap hg (hresult a rfl)
    constructor <;> rw [hbind]
    · exact hheap'
    · exact hg.trans hg'
    · exact hresult'
    · exact hstuck'

/-- A fault is passed on; all else goes on with an allowed value. -/
theorem Obeys.checked {act : Eval Value} {k : Value → Eval Value} (h : Obeys D D.gives act m)
    (hnext : ∀ v m₁, D.Holds m₁.heap → m.heap.Grows m₁.heap → D.admits m₁.heap v →
      Obeys D D.gives (k v) m₁) :
    Obeys D D.gives (act >>= fun v => if v.isFault then pure v else k v) m := by
  refine h.bind fun v m₁ _ hm₁ hg hv => ?_
  by_cases hf : v.isFault = true
  · simp only [if_pos hf]
    exact obeys_pure hm₁ hv
  · simp only [if_neg hf]
    exact hnext v m₁ hm₁ hg (Discipline.admits_of_gives hv (by simpa using hf))

theorem Obeys.nested {act : Eval α} (h : Obeys D post act { m with nesting := m.nesting + 1 }) :
    Obeys D post (nested act) m :=
  ⟨h.holds, h.grows, h.result, h.stuck⟩

theorem Obeys.called {act : Eval α} (h : Obeys D post act { m with depth := m.depth + 1 }) :
    Obeys D post (called act) m :=
  ⟨h.holds, h.grows, h.result, h.stuck⟩

end

/-! ## The parts of the evaluator -/

theorem obeys_evalName (hm : D.Holds m.heap) {i : ScopeId} {pos : Pos} {text : String}
    (hn : D.Placed m.heap i (.identifier pos text)) : Obeys D D.gives (evalName i text) m := by
  refine obeys_get ?_
  cases hfind : m.heap.find? i text with
  | some v => exact obeys_pure hm (.inr (hm.find? hfind))
  | none =>
    cases hname : Builtin.ofName? text with
    | some b => exact obeys_pure hm (.inr (D.name hn.tree hname))
    | none => exact obeys_fault hm _

theorem obeys_bindName (hm : D.Holds m.heap) (i : ScopeId) (name : Node) {v : Value}
    (hv : D.admits m.heap v) : Obeys D (fun h _ => D.admits h v) (bindName i name v) m := by
  unfold bindName
  cases name.boundName? with
  | some text =>
    have hg : m.heap.Grows (m.heap.bind i text v) := .bind _ i text v
    refine ⟨hm.bind i text hv, hg, fun _ _ => Discipline.admits_of_grows hg hv, ?_⟩
    intro e he
    cases he
  | none => exact obeys_pure hm hv

/-- A way to evaluate trees that keeps the rule, for trees that are placed. -/
def ObeysTrees (D : Discipline) (eval : Node → ScopeId → Eval Value) : Prop :=
  ∀ n i m, D.Holds m.heap → D.Placed m.heap i n → Obeys D D.gives (eval n i) m

section

variable {maxDepth : Nat} {eval : Node → ScopeId → Eval Value} (h : ObeysTrees D eval)

include h

theorem obeys_runStatements {i : ScopeId} {ss : List Node} (hm : D.Holds m.heap)
    (hss : ∀ s ∈ ss, D.Placed m.heap i s) {last : Value} (hlast : D.gives m.heap last) :
    Obeys D D.gives (runStatements (eval · i) last ss) m := by
  induction ss generalizing last m with
  | nil => exact obeys_pure hm hlast
  | cons s ss ih =>
    refine (h s i m hm (hss s List.mem_cons_self)).bind fun v m₁ _ hm₁ hg hv => ?_
    by_cases hstops : v.stops = true
    · simp only [if_pos hstops]
      exact obeys_pure hm₁ hv
    · simp only [if_neg hstops]
      exact ih hm₁ (fun s' hs' => (hss s' (List.mem_cons_of_mem _ hs')).of_grows hg) hv

theorem obeys_evalArguments {i : ScopeId} {es : List Node} (hm : D.Holds m.heap)
    (hes : ∀ e ∈ es, D.Placed m.heap i e) :
    Obeys D (fun h r => ∀ vs, r = .ok vs → ∀ v ∈ vs, D.admits h v)
      (evalArguments (eval · i) es) m := by
  induction es generalizing m with
  | nil => exact obeys_pure hm (by simp)
  | cons e es ih =>
    refine (h e i m hm (hes e List.mem_cons_self)).bind fun v m₁ _ hm₁ hg hv => ?_
    have hrest := ih hm₁ fun e' he' => (hes e' (List.mem_cons_of_mem _ he')).of_grows hg
    cases v with
    | fault f => exact obeys_pure hm₁ (by simp)
    | _ =>
      refine hrest.bind ?_
      rintro (f | vs) m₂ - hm₂ hg₂ hvs
      · exact obeys_pure hm₂ (by simp)
      · refine obeys_pure hm₂ ?_
        rintro _ ⟨⟩
        have hhead := Discipline.admits_of_gives hv rfl
        exact List.forall_mem_cons.2 ⟨Discipline.admits_of_grows hg₂ hhead, hvs vs rfl⟩

theorem obeys_applyWith (hm : D.Holds m.heap) {f : Value} (hf : D.admits m.heap f)
    {args : List Value} (hargs : ∀ v ∈ args, D.admits m.heap v) :
    Obeys D D.gives (applyWith maxDepth eval f args) m := by
  cases f with
  | builtin b =>
    have hprint : Obeys D (fun _ _ => True) (print (b.apply args).2) m :=
      ⟨hm, .refl _, fun _ _ => trivial, fun _ he => by cases he⟩
    exact hprint.bind fun _ m₁ _ hm₁ _ _ => obeys_pure hm₁ (Discipline.gives_apply hf args)
  | function params body scope =>
    unfold applyWith
    by_cases harity : args.length ≠ params.length
    · simp only [if_pos harity]
      exact obeys_fault hm _
    · simp only [if_neg harity]
      refine obeys_get ?_
      by_cases hdepth : maxDepth ≤ m.depth
      · simp only [if_pos hdepth]
        exact obeys_fault hm _
      · simp only [if_neg hdepth]
        obtain ⟨hheap, hg, hbody⟩ := m.holds_entered hm hf hargs
        have henclose : Obeys D (fun h inner => D.Placed h inner body)
            (enclose scope (bindings params args)) m := by
          refine ⟨hheap, hg, ?_, fun _ he => by cases he⟩
          intro inner hinner
          cases hinner
          exact hbody
        refine henclose.bind fun inner m₁ _ hm₁ _ hplaced => ?_
        have hrun := h body inner { m₁ with depth := m₁.depth + 1 } hm₁ hplaced
        refine hrun.called.bind fun v m₂ _ hm₂ _ hv => ?_
        exact obeys_pure hm₂ (Discipline.gives_arrived hv)
  | _ => exact obeys_fault hm _

/-- One node: one case for each kind, and in each what stands under it is placed. -/
theorem obeys_evalWith : ObeysTrees D (evalWith maxDepth eval) := by
  intro n i m hm hn
  have hpart : ∀ {c : Node}, c ∈ n.parts → Obeys D D.gives (eval c i) m :=
    fun hc => h _ i m hm (hn.part hc)
  have hnull : D.gives m.heap .null := .inr trivial
  cases n with
  | program _ ss =>
    refine (obeys_runStatements h hm (fun s hs => hn.part hs) hnull).bind ?_
    exact fun v m₁ _ hm₁ _ hv => obeys_pure hm₁ (Discipline.gives_arrived hv)
  | block _ ss => exact obeys_runStatements h hm (fun s hs => hn.part hs) hnull
  | statement _ e => exact hpart List.mem_cons_self
  | binding _ name e =>
    refine (hpart List.mem_cons_self).checked fun v m₁ hm₁ _ hv => ?_
    exact (obeys_bindName hm₁ i name hv).bind fun _ m₂ _ hm₂ _ hv₂ => obeys_pure hm₂ (.inr hv₂)
  | returning _ e =>
    refine (hpart List.mem_cons_self).checked fun v m₁ hm₁ _ hv => ?_
    exact obeys_pure hm₁ (.inr hv)
  | integer _ n => exact obeys_pure hm (.inr (D.literal hn.tree))
  | boolean | string => exact obeys_pure hm (.inr trivial)
  | function _ params body =>
    exact obeys_pure hm (.inr ⟨hn.exists_scope, D.body hn.tree⟩)
  | identifier _ text => exact obeys_evalName hm hn
  | unary _ op e =>
    refine (hpart List.mem_cons_self).checked fun v m₁ hm₁ _ _ => ?_
    exact obeys_pure hm₁ (Discipline.gives_unary op v)
  | binary _ l op r =>
    refine (hpart List.mem_cons_self).checked fun lv m₁ hm₁ hg _ => ?_
    have hr := (hn.part (c := r) (by simp [Syntax.Node.parts])).of_grows hg
    refine (h r i m₁ hm₁ hr).checked fun rv m₂ hm₂ _ _ => ?_
    exact obeys_pure hm₂ (Discipline.gives_binary op lv rv)
  | conditional _ c t e =>
    refine (hpart List.mem_cons_self).checked fun v m₁ hm₁ hg _ => ?_
    by_cases htruthy : v.truthy = true
    · simp only [if_pos htruthy]
      exact h t i m₁ hm₁ ((hn.part (by simp [Syntax.Node.parts])).of_grows hg)
    · simp only [if_neg htruthy]
      cases e with
      | some e => exact h e i m₁ hm₁ ((hn.part (by simp [Syntax.Node.parts])).of_grows hg)
      | none => exact obeys_pure hm₁ (.inr trivial)
  | call _ f args =>
    refine (hpart List.mem_cons_self).checked fun fv m₁ hm₁ hg hfv => ?_
    have hargs : ∀ e ∈ args, D.Placed m₁.heap i e :=
      fun e he => (hn.part (List.mem_cons_of_mem _ he)).of_grows hg
    refine (obeys_evalArguments h hm₁ hargs).bind ?_
    rintro (fault | vs) m₂ - hm₂ hg₂ hvs
    · exact obeys_fault hm₂ fault
    · exact obeys_applyWith h hm₂ (Discipline.admits_of_grows hg₂ hfv) (hvs vs rfl)
  | bare pos =>
    refine ⟨hm, .refl _, ?_, fun _ _ => ⟨_, pos, hn.tree⟩⟩
    intro a ha
    cases ha

end

/-- **A run keeps the rule**, by induction on the room for active nodes. -/
theorem obeys_evalNode (D : Discipline) (maxDepth budget : Nat) :
    ObeysTrees D (evalNode maxDepth budget) := by
  induction budget with
  | zero => exact fun _ _ _ hm _ => obeys_fault hm _
  | succ budget ih =>
    intro n i m hm hn
    exact (obeys_evalWith ih n i { m with nesting := m.nesting + 1 } hm hn).nested

/-! ## The points of a run -/

section

variable {maxDepth : Nat}

theorem Obeys.of_run {α : Type} {post : Heap → α → Prop} {act : Eval α} {a : α}
    (h : Obeys D post act m) (hrun : act m = (.ok a, m')) :
    D.Holds m'.heap ∧ m.heap.Grows m'.heap ∧ post m'.heap a := by
  obtain ⟨hheap, hg, hresult, -⟩ := h
  rw [hrun] at hheap hg hresult
  exact ⟨hheap, hg, hresult a rfl⟩

theorem Comes.placed {stop : Value → Bool} {eval : Node → ScopeId → Eval Value}
    (h : ObeysTrees D eval) {i : ScopeId} {es : List Node} {e : Node}
    (hcomes : Comes stop (eval · i) es m e m') (hm : D.Holds m.heap)
    (hes : ∀ e ∈ es, D.Placed m.heap i e) : D.Holds m'.heap ∧ D.Placed m'.heap i e := by
  induction hcomes with
  | here => exact ⟨hm, hes _ List.mem_cons_self⟩
  | later hrun _ _ ih =>
    obtain ⟨hm₁, hg, -⟩ := (h _ i _ hm (hes _ List.mem_cons_self)).of_run hrun
    exact ih hm₁ fun e he => (hes e (List.mem_cons_of_mem _ he)).of_grows hg

/-- What is evaluated for a tree that is placed is placed itself. -/
theorem Calls.placed {eval : Node → ScopeId → Eval Value} (h : ObeysTrees D eval) {n n' : Node}
    {i i' : ScopeId} (hcalls : Calls maxDepth eval n i m n' i' m') (hm : D.Holds m.heap)
    (hn : D.Placed m.heap i n) : D.Holds m'.heap ∧ D.Placed m'.heap i' n' := by
  cases hcalls with
  | program hcomes => exact hcomes.placed h hm fun s hs => hn.part hs
  | block hcomes => exact hcomes.placed h hm fun s hs => hn.part hs
  | statement | binding | returning | unary | left | condition | callee =>
    exact ⟨hm, hn.part List.mem_cons_self⟩
  | right hl =>
    obtain ⟨hm₁, hg, -⟩ := (h _ i m hm (hn.part List.mem_cons_self)).of_run hl
    exact ⟨hm₁, (hn.part (by simp [Syntax.Node.parts])).of_grows hg⟩
  | consequence hc =>
    obtain ⟨hm₁, hg, -⟩ := (h _ i m hm (hn.part List.mem_cons_self)).of_run hc
    exact ⟨hm₁, (hn.part (by simp [Syntax.Node.parts])).of_grows hg⟩
  | alternative hc =>
    obtain ⟨hm₁, hg, -⟩ := (h _ i m hm (hn.part List.mem_cons_self)).of_run hc
    exact ⟨hm₁, (hn.part (by simp [Syntax.Node.parts])).of_grows hg⟩
  | argument hf _ hcomes =>
    obtain ⟨hm₁, hg, -⟩ := (h _ i m hm (hn.part List.mem_cons_self)).of_run hf
    exact hcomes.placed h hm₁ fun e he => (hn.part (List.mem_cons_of_mem _ he)).of_grows hg
  | @body _ _ args _ _ _ _ _ _ m₁ _ hf hargs =>
    obtain ⟨hm₁, hg, hfunction⟩ := (h _ i m hm (hn.part List.mem_cons_self)).of_run hf
    have hplaced : ∀ e ∈ args, D.Placed m₁.heap i e :=
      fun e he => (hn.part (List.mem_cons_of_mem _ he)).of_grows hg
    obtain ⟨hm₂, hg₂, hvs⟩ := (obeys_evalArguments h hm₁ hplaced).of_run hargs
    -- the function was allowed when it was found, and still is after its arguments
    have hstill := Discipline.admits_of_grows hg₂ (Discipline.admits_of_gives hfunction rfl)
    obtain ⟨hheap, -, hbody⟩ := Machine.holds_entered hm₂ hstill (hvs _ rfl)
    exact ⟨hheap, hbody⟩

/-- **All that a run comes to is placed.** -/
theorem Visits.placed {b b' : Nat} {n n' : Node} {i i' : ScopeId}
    (hvisits : Visits maxDepth b n i m b' n' i' m') (hm : D.Holds m.heap)
    (hn : D.Placed m.heap i n) : D.Holds m'.heap ∧ D.Placed m'.heap i' n' := by
  induction hvisits with
  | here => exact ⟨hm, hn⟩
  | inside hcalls _ ih =>
    obtain ⟨hm₁, hn₁⟩ := hcalls.placed (obeys_evalNode D maxDepth _) hm hn
    exact ih hm₁ hn₁

end

/-! ## Programs one after the other -/

/-- The machine after programs that were run one after the other, each in the global scope. -/
def Machine.after (maxDepth : Nat) (programs : List Node) : Machine :=
  programs.foldl (fun m p => (evaluate maxDepth p Machine.globalScope m).2) .initial

theorem obeys_evaluate (D : Discipline) (maxDepth : Nat) : ObeysTrees D (evaluate maxDepth) :=
  fun n i m hm hn => obeys_get (obeys_evalNode D maxDepth _ n i m hm hn)

/-- The global scope stays outermost, so that what is allowed outside all functions is placed
there. -/
theorem placed_global {h : Heap} (hg : Machine.initial.heap.Grows h) {n : Node}
    (hn : D.tree 0 n) : D.Placed h Machine.globalScope n := by
  have hzero : Machine.globalScope < Machine.initial.heap.nextId := Nat.zero_lt_one
  refine ⟨Nat.lt_of_lt_of_le hzero hg.size, ?_⟩
  rw [hg.around _ hzero]
  exact hn

/-- **Programs that are allowed outside all functions keep the rule**, one after the other. -/
theorem Machine.holds_after (maxDepth : Nat) {programs : List Node}
    (hprograms : ∀ p ∈ programs, D.tree 0 p) :
    D.Holds (after maxDepth programs).heap ∧
      Machine.initial.heap.Grows (after maxDepth programs).heap := by
  refine List.foldlRecOn (motive := fun m : Machine => D.Holds m.heap ∧ initial.heap.Grows m.heap)
    programs _ ⟨Discipline.Holds.initial, .refl _⟩ ?_
  rintro m ⟨hm, hg⟩ p hp
  have hrun := obeys_evaluate D maxDepth p globalScope m hm (placed_global hg (hprograms p hp))
  exact ⟨hrun.holds, hg.trans hrun.grows⟩

end Eval

end Scriptlet
