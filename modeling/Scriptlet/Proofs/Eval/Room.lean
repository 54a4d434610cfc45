import Scriptlet.Proofs.Eval.Limits
import Scriptlet.Proofs.Eval.Meaning
import Scriptlet.Proofs.Parser.Height

/-!
# Room for parsed trees

A tree without calls is evaluated with as many active nodes as it is high. The parser's limit on
open expressions bounds that height only together with the chains of infix operators, so a text
that parses may need more room than there is.

* `unlimited_node`: a tree without calls hits no limit that is at least its height.
* `fault_of_leadsDown`: a tree that leads as far down as there is room hits the limit.
* `evaluate_parsed_within_limit`: how much room a text without diagnostics needs.
* `evaluate_longSum`: a sum that parses and hits the limit.
-/

namespace Scriptlet

open Syntax (Node)
open Syntax.Node

namespace Walk

/-! ## Trees that are no higher than the room -/

/-- The walk is not cut off by a limit. -/
def Unlimited {α : Type} (p : Walk α) : Prop :=
  ∀ w f, (p w).1 = .error (.fault f) → f.exceedsLimit = false

section

variable {α β : Type} {p : Walk α} {k : α → Walk β}

theorem unlimited_pure (a : α) : Unlimited (pure a : Walk α) := by
  intro w f h
  cases h

theorem unlimited_abort {f : Fault} (hf : f.exceedsLimit = false) :
    Unlimited (abort f : Walk α) := by
  intro w f' h
  cases h
  exact hf

theorem Unlimited.bind (h : Unlimited p) (hk : ∀ a, Unlimited (k a)) : Unlimited (p >>= k) := by
  intro w f hf
  have hcut := h w f
  rw [bind_run] at hf
  generalize p w = r at hcut hf
  rcases r with ⟨stop | a, w'⟩
  · cases hf
    exact hcut rfl
  · exact hk a w' f hf

end

/-- The operators do not look at the limits. -/
theorem exceedsLimit_unary {op : String} {v : Value} {f : Fault} (h : v.unary op = .fault f) :
    f.exceedsLimit = false := by
  unfold Value.unary at h
  split at h
  · cases h
  · cases v <;> cases h <;> rfl
  · cases h
    rfl

theorem exceedsLimit_onIntegers {l r : Int} {o : BinaryOp} {f : Fault}
    (h : o.onIntegers l r = .fault f) : f.exceedsLimit = false := by
  cases o with
  | div =>
    simp only [BinaryOp.onIntegers] at h
    split at h <;> cases h
    rfl
  | pow =>
    simp only [BinaryOp.onIntegers] at h
    split at h <;> cases h <;> rfl
  | _ => cases h

theorem exceedsLimit_binary {op : String} {l r : Value} {f : Fault}
    (h : Value.binary op l r = .fault f) : f.exceedsLimit = false := by
  unfold Value.binary at h
  split at h
  · rename_i v hv
    subst h
    unfold Value.binary? at hv
    split at hv
    · obtain ⟨o, -, ho⟩ := Option.map_eq_some_iff.1 hv
      exact exceedsLimit_onIntegers ho
    · obtain ⟨o, -, ho⟩ := Option.bind_eq_some_iff.1 hv
      cases o <;> cases ho
    · obtain ⟨o, -, ho⟩ := Option.bind_eq_some_iff.1 hv
      cases o <;> cases ho
    · cases hv
  · split at h <;> cases h <;> rfl

theorem unlimited_produce {v : Value} (h : ∀ f, v = .fault f → f.exceedsLimit = false) :
    Unlimited (produce v) := by
  cases v with
  | fault f => exact unlimited_abort (h f rfl)
  | _ => exact unlimited_pure _

theorem unlimited_statements {walk : Node → Walk Value} {ss : List Node}
    (h : ∀ e ∈ ss, Unlimited (walk e)) (last : Value) : Unlimited (statements walk last ss) := by
  induction ss generalizing last with
  | nil => exact unlimited_pure last
  | cons s ss ih =>
    refine (h s List.mem_cons_self).bind fun v => ?_
    have hrest := ih fun e he => h e (List.mem_cons_of_mem _ he)
    cases v with
    | returning v => exact unlimited_pure _
    | _ => exact hrest _

theorem unlimited_name (scope : ScopeId) (text : String) : Unlimited (name scope text) := by
  intro w f h
  unfold name at h
  rw [get_bind_run] at h
  cases hfind : w.heap.find? scope text with
  | some v =>
    rw [hfind] at h
    cases h
  | none =>
    rw [hfind] at h
    cases hbuiltin : Builtin.ofName? text with
    | some b =>
      simp only [hbuiltin] at h
      cases h
    | none =>
      simp only [hbuiltin] at h
      cases h
      rfl

theorem unlimited_bindName (scope : ScopeId) (name : Node) (v : Value) :
    Unlimited (bindName scope name v) := by
  unfold bindName
  cases name.boundName? with
  | some text =>
    intro w f h
    cases h
  | none => exact unlimited_pure ()

/-- One node that is no call hits no limit if its parts do not. -/
theorem unlimited_tree {maxDepth depth : Nat} {walk : Nat → Node → ScopeId → Walk Value} {n : Node}
    {scope : ScopeId} (hcall : n.isCall = false)
    (h : ∀ c ∈ n.parts, Unlimited (walk depth c scope)) :
    Unlimited (tree maxDepth depth walk n scope) := by
  cases n with
  | program _ ss => exact (unlimited_statements h .null).bind fun v => unlimited_pure _
  | block _ ss => exact unlimited_statements h .null
  | statement _ e => exact h e List.mem_cons_self
  | binding _ name e =>
    refine (h e List.mem_cons_self).bind fun v => ?_
    exact (unlimited_bindName scope name v).bind fun _ => unlimited_pure v
  | returning _ e => exact (h e List.mem_cons_self).bind fun v => unlimited_pure _
  | integer | boolean | string | function => exact unlimited_pure _
  | identifier _ text => exact unlimited_name scope text
  | unary _ op e =>
    refine (h e List.mem_cons_self).bind fun v => ?_
    exact unlimited_produce fun f hf => exceedsLimit_unary hf
  | binary _ l op r =>
    refine (h l List.mem_cons_self).bind fun lv => ?_
    refine (h r (List.mem_cons_of_mem _ List.mem_cons_self)).bind fun rv => ?_
    exact unlimited_produce fun f hf => exceedsLimit_binary hf
  | conditional _ c t e =>
    refine (h c List.mem_cons_self).bind fun v => ?_
    split
    · exact h t (List.mem_cons_of_mem _ List.mem_cons_self)
    · cases e with
      | some e => exact h e (by simp [parts])
      | none => exact unlimited_pure _
  | call => cases hcall
  | bare pos =>
    intro w f h
    cases h

/-- **A tree without calls hits no limit that is at least its height.** -/
theorem unlimited_node {maxDepth budget depth : Nat} {n : Node} (scope : ScopeId)
    (hcalls : n.every (!·.isCall)) (h : n.height ≤ budget) :
    Unlimited (node maxDepth budget depth n scope) := by
  induction budget generalizing n with
  | zero =>
    have hpos := height_pos n
    omega
  | succ budget ih =>
    refine unlimited_tree (by simpa using self_of_every hcalls) fun c hc => ?_
    have hlt := height_lt_of_mem_parts hc
    exact ih (every_of_mem_parts hcalls hc) (by omega)

end Walk

namespace Eval

/-- A run of a tree without calls ends in no fault about a limit that is at least its height. -/
theorem evaluate_of_height_le {m : Machine} (hm : m.Resting) {maxDepth : Nat} {n : Node}
    {scope : ScopeId} (hcalls : n.every (!·.isCall)) (h : n.height ≤ nestingLimit maxDepth)
    {f : Fault} (hf : (evaluate maxDepth n scope m).1 = .ok (.fault f)) :
    f.exceedsLimit = false := by
  have hfree : Walk.Unlimited (Walk.node maxDepth (nestingLimit maxDepth) 0 n scope) :=
    Walk.unlimited_node scope hcalls h
  obtain ⟨-, -, hsound⟩ :=
    agrees_evalNode maxDepth (nestingLimit maxDepth) 0 n scope m hm.depth hm.heap
  rw [(hm.evaluate maxDepth n scope).1] at hf
  unfold Walk.run at hf
  cases hrun : (Walk.node maxDepth (nestingLimit maxDepth) 0 n scope m.world).1 with
  | ok v =>
    -- a walk gives no fault as a value
    rw [hrun] at hf
    obtain rfl : v = .fault f := Except.ok.inj hf
    cases hsound _ hrun
  | error stop =>
    rw [hrun] at hf
    cases stop with
    | fault f' =>
      obtain rfl : f' = f := Value.fault.inj (Except.ok.inj hf)
      exact hfree m.world f' hrun
    | meaningless e => cases hf

/-! ## Trees that lead deeper than the room -/

/-- From a tree, `k` steps lead down to what is evaluated first. -/
inductive LeadsDown : Nat → Node → Prop
  | here {n : Node} : LeadsDown 0 n
  | first {k : Nat} {n c : Node} {cs : List Node} :
      n.parts = c :: cs → LeadsDown k c → LeadsDown (k + 1) n

/-- A chain of infix operators leads down to the left. -/
theorem leadsDown_chain : (n : Node) → LeadsDown n.chain n
  | binary _ l _ _ => .first rfl (leadsDown_chain l)
  | program .. | block .. | binding .. | returning .. | statement .. | identifier .. | integer ..
  | boolean .. | string .. | unary .. | conditional .. | function .. | call .. | bare .. => .here

theorem fault_bind {act : Eval Value} {k : Value → Eval Value} {m : Machine} {f : Fault}
    (h : (act m).1 = .ok (.fault f)) (hk : ∀ m₁, (k (.fault f) m₁).1 = .ok (.fault f)) :
    ((act >>= k) m).1 = .ok (.fault f) := by
  rw [bind_run]
  generalize act m = r at h
  obtain ⟨_, m₁⟩ := r
  cases h
  exact hk m₁

/-- A fault of what is evaluated first is the value of the tree. -/
theorem fault_of_first {maxDepth : Nat} {eval : Node → ScopeId → Eval Value} {n c : Node}
    {cs : List Node} (hparts : n.parts = c :: cs) {i : ScopeId} {m : Machine} {f : Fault}
    (h : (eval c i m).1 = .ok (.fault f)) : (evalWith maxDepth eval n i m).1 = .ok (.fault f) := by
  cases n with
  | program _ ss =>
    obtain rfl : ss = c :: cs := hparts
    have hstatements : (runStatements (eval · i) .null (c :: cs) m).1 = .ok (.fault f) :=
      fault_bind h fun _ => rfl
    exact fault_bind hstatements fun _ => rfl
  | block _ ss =>
    obtain rfl : ss = c :: cs := hparts
    exact fault_bind h fun _ => rfl
  | statement =>
    cases hparts
    exact h
  | binding | returning | unary | binary | conditional | call =>
    cases hparts
    exact fault_bind h fun _ => rfl
  | identifier | integer | boolean | string | function | bare => cases hparts

/-- **A tree that leads as far down as there is room hits the limit.** -/
theorem fault_of_leadsDown {maxDepth budget : Nat} {n : Node} (h : LeadsDown budget n) (i : ScopeId)
    (m : Machine) : (evalNode maxDepth budget n i m).1 =
      .ok (.fault (.tooManyNodes (nestingLimit maxDepth))) := by
  induction h generalizing m with
  | here => rfl
  | first hparts _ ih => exact fault_of_first hparts (ih { m with nesting := m.nesting + 1 })

/-! ## Parsed texts -/

/-- The nodes that an expression which is open may add to the height of a tree, infix operators
aside: three if there are conditions, with their blocks and statements, and otherwise one. -/
def stride (n : Node) : Nat := if n.every (!·.isConditional) then 1 else 3

theorem one_le_stride (n : Node) : 1 ≤ stride n := by
  unfold stride
  split <;> decide

theorem stride_le_three (n : Node) : stride n ≤ 3 := by
  unfold stride
  split <;> decide

theorem every_plainly {n : Node} {w : Nat} (hcalls : n.every (!·.isCall))
    (hchain : n.every (·.chain ≤ w)) : n.every (plainly w (stride n)) := by
  by_cases hconditions : n.every (!·.isConditional) = true
  · have hplainly : plainly w (stride n) =
        fun e => !e.isCall && (decide (e.chain ≤ w) && !e.isConditional) := by
      funext e
      simp [plainly, stride, hconditions]
    rw [hplainly, every_and, every_and, hcalls, hchain, hconditions]
    rfl
  · have hplainly : plainly w (stride n) = fun e => !e.isCall && decide (e.chain ≤ w) := by
      funext e
      simp [plainly, stride, hconditions]
    rw [hplainly, every_and, hcalls, hchain]
    rfl

/-- What is parsed with the limit on open expressions that holds unless another is given. -/
def programOf (source : String) : Node := (Parsed.ofSource source {}).program

/-! ## A sum that is too long -/

/-- What `n` more summands add to a sum. -/
def moreSummands : Nat → List Char
  | 0 => []
  | n + 1 => '+' :: '1' :: moreSummands n

/-- The tokens of `n` more summands. -/
def summandTokens : Nat → List (Token.Kind × String)
  | 0 => []
  | n + 1 => (.plus, "+") :: (.int, "1") :: summandTokens n

/-- A sum of ones with `n` operators. -/
def longSum (n : Nat) : String := String.ofList ('1' :: moreSummands n)

theorem lexemes_longSum (n : Nat) :
    Token.lexemes ('1' :: moreSummands n) = (.int, "1") :: summandTokens n := by
  have hparted : Token.Parted (moreSummands n) := by
    intro c hc
    cases n with
    | zero => cases hc
    | succ n =>
      cases hc
      rfl
  have hone : Token.lexemes ('1' :: moreSummands n) =
      (.int, "1") :: Token.lexemes (moreSummands n) :=
    Token.lexemes_number (show Token.isDigit '1' from rfl) (show [].all Token.isDigit from rfl)
      hparted
  rw [hone]
  cases n with
  | zero =>
    rw [moreSummands, Token.lexemes_nil]
    rfl
  | succ n =>
    have hplus : Token.lexemes ('+' :: '1' :: moreSummands n) =
        (.plus, "+") :: Token.lexemes ('1' :: moreSummands n) :=
      Token.lexemes_operator₁ rfl (by simp [Token.operator₂])
    rw [moreSummands, hplus, lexemes_longSum n, summandTokens]

open Parser.Reads in
/-- Each summand puts an infix operator on top of those before it. -/
theorem reads_summands {n : Nat} {us : List Token} (hus : us.map Token.bare = summandTokens n)
    {left : Node} (hleft : left.every (!·.isCall)) (b : Nat) :
    ∃ e, Extension (Expression (b + 1)) Token.Kind.lowestPower left us [] e ∧
      e.chain = left.chain + n ∧ e.every (!·.isCall) := by
  induction n generalizing us left with
  | zero =>
    obtain rfl : us = [] := List.map_eq_nil_iff.1 hus
    exact ⟨left, .done (fun _ ht => by cases ht), rfl, hleft⟩
  | succ n ih =>
    obtain ⟨plus, us, rfl, hplus, hus⟩ := List.map_eq_cons_iff.1 hus
    obtain ⟨one, us, rfl, hone, hus⟩ := List.map_eq_cons_iff.1 hus
    have hkind : plus.kind = .plus := congrArg Prod.fst hplus
    have hint : one.kind = .int := congrArg Prod.fst hone
    have htext : one.text = "1" := congrArg Prod.snd hone
    -- the next operator binds no tighter, so that only one summand is read to the right
    have hends : Ends Token.Kind.plus.power us := by
      intro t ht hcontinues
      cases n with
      | zero =>
        obtain rfl : us = [] := List.map_eq_nil_iff.1 hus
        cases ht
      | succ n =>
        obtain ⟨next, us, rfl, hnext, -⟩ := List.map_eq_cons_iff.1 hus
        obtain rfl : next = t := Option.some.inj ht
        have hkind : next.kind = .plus := congrArg Prod.fst hnext
        rw [hkind] at hcontinues
        exact absurd hcontinues.2 (by decide)
    have hright : Expression (b + 1) plus.kind.power (one :: us) us (.integer one.pos 1) := by
      rw [hkind]
      refine ⟨us, _, .integer hint ?_ (by decide), .done hends⟩
      rw [htext]
      decide
    have hnode : (binary plus.pos left plus.text (integer one.pos 1)).every (!·.isCall) := by
      simp only [every, hleft]
      rfl
    obtain ⟨e, hread, hchain, hcalls⟩ := ih hus hnode
    refine ⟨e, .binary (by rw [hkind]; rfl) (by rw [hkind]; decide) hright hread, ?_, hcalls⟩
    rw [hchain, chain]
    omega

open Parser.Reads in
theorem parsed_longSum (n : Nat) :
    (Parsed.ofSource (longSum n) {}).errors = [] ∧ ∃ pos e,
      programOf (longSum n) = .program .start [.statement pos e] ∧ e.chain = n ∧
        e.every (!·.isCall) := by
  obtain ⟨us, z, hscan, hus, hz, hne⟩ := Token.scan_eq (longSum n)
  rw [longSum, String.toList_ofList, lexemes_longSum] at hus
  obtain ⟨one, us, rfl, hone, hus⟩ := List.map_eq_cons_iff.1 hus
  have hint : one.kind = .int := congrArg Prod.fst hone
  have htext : one.text = "1" := congrArg Prod.snd hone
  have hleaf : (integer one.pos 1).every (!·.isCall) := rfl
  obtain ⟨e, hread, hchain, hcalls⟩ := reads_summands hus hleaf 498
  have hstart : Start (Expression 499) (one :: us) us (.integer one.pos 1) :=
    .integer hint (by rw [htext]; decide) (by decide)
  have hprogram : Program (Expression 500) (one :: us) [.statement one.pos e] := by
    refine .cons (.expression ?_ ?_ ⟨us, _, hstart, hread⟩) .nil
    · rw [hint]
      decide
    · rw [hint]
      decide
  rw [← Parser.visible_append_eof hne hz] at hprogram
  obtain ⟨herrors, htree⟩ :=
    (Parser.errors_ofTokens_eq_nil_iff (m := 500) (Parser.ended_append hne)).2 ⟨_, rfl, hprogram⟩
  unfold programOf Parsed.ofSource
  rw [hscan]
  refine ⟨herrors, one.pos, e, htree, ?_, hcalls⟩
  rw [hchain]
  exact Nat.zero_add n

/-- A sum of ones may be too long for any number of active calls. -/
theorem fault_of_longSum {maxDepth n : Nat} (h : n + 2 = nestingLimit maxDepth) :
    (programOf (longSum n)).every (!·.isCall) ∧
      (evaluate maxDepth (programOf (longSum n)) Machine.globalScope .initial).1 =
        .ok (.fault (.tooManyNodes (nestingLimit maxDepth))) := by
  obtain ⟨-, pos, e, hprogram, hchain, hcalls⟩ := parsed_longSum n
  have hdown : LeadsDown n e := hchain ▸ leadsDown_chain e
  have hwhole : LeadsDown (n + 2) (.program .start [.statement pos e]) :=
    .first rfl (.first rfl hdown)
  rw [h] at hwhole
  rw [hprogram]
  refine ⟨?_, fault_of_leadsDown hwhole _ _⟩
  simp only [every, everyOf, hcalls]
  rfl

/-! ## How much room a text needs -/

/-- **How much room a text without calls needs.**

A text without diagnostics has a value. It is a fault about a limit only if the tree is higher than
there is room for active nodes. The tree is no higher than the limit on open expressions allows,
where each of these adds a chain of infix operators and the stride.

So a text without infix operators hits no limit if there are no conditions in it, or if a hundred
calls may be active. A sum may be too long for any number of active calls. -/
theorem evaluate_parsed_within_limit {source : String}
    (herrors : (Parsed.ofSource source {}).errors = [])
    (hcalls : (programOf source).every (!·.isCall)) (maxDepth : Nat) :
    (∃ v m, evaluate maxDepth (programOf source) Machine.globalScope .initial = (.ok v, m) ∧
      (∀ f, v = .fault f → f.exceedsLimit → nestingLimit maxDepth < (programOf source).height) ∧
      ((programOf source).every (·.chain ≤ 0) →
        (1 ≤ maxDepth ∧ (programOf source).every (!·.isConditional)) ∨ 100 ≤ maxDepth →
        ∀ f, v = .fault f → f.exceedsLimit = false)) ∧
    (∀ w, (programOf source).every (·.chain ≤ w) →
      (programOf source).height ≤ (w + stride (programOf source)) * 499 + 3) ∧
    ((Parsed.ofSource (longSum (maxDepth * 10 + 498)) {}).errors = [] ∧
      (programOf (longSum (maxDepth * 10 + 498))).every (!·.isCall) ∧
      ∃ f, (evaluate maxDepth (programOf (longSum (maxDepth * 10 + 498))) Machine.globalScope
        .initial).1 = .ok (.fault f) ∧ f.exceedsLimit) := by
  have hheight (w : Nat) (hchain : (programOf source).every (·.chain ≤ w)) :
      (programOf source).height ≤ (w + stride (programOf source)) * 499 + 3 :=
    Parser.height_ofSource (k := 499) (one_le_stride _) herrors (every_plainly hcalls hchain)
  obtain ⟨v, m, hv⟩ := exists_value_of_source maxDepth {} source
  have hlimit (f : Fault) (hf : v = .fault f) (hexceeds : f.exceedsLimit) :
      nestingLimit maxDepth < (programOf source).height := by
    by_contra hle
    have hresting : Machine.initial.Resting := Reached.start.addOutermost.resting
    have hfree := evaluate_of_height_le hresting hcalls (Nat.not_lt.1 hle)
      (hf ▸ congrArg Prod.fst hv)
    rw [hfree] at hexceeds
    cases hexceeds
  refine ⟨⟨v, m, hv, hlimit, fun hchain hroom f hf => ?_⟩, hheight, ?_⟩
  · refine Bool.eq_false_iff.2 fun hexceeds => Nat.not_le.2 (hlimit f hf hexceeds) ?_
    have hlow := hheight 0 hchain
    have hstride := stride_le_three (programOf source)
    unfold nestingLimit
    rcases hroom with ⟨hdepth, hplain⟩ | hdepth
    · rw [stride, if_pos hplain] at hlow
      omega
    · omega
  · have hlimit : maxDepth * 10 + 498 + 2 = nestingLimit maxDepth := rfl
    obtain ⟨hfree, hfault⟩ := fault_of_longSum hlimit
    exact ⟨(parsed_longSum _).1, hfree, _, hfault, rfl⟩

/-- A text with blocks in blocks, prefix and infix operators and a function. -/
def branchesText : String :=
  "let f = fn(x) \x7b x + 1 \x7d; if (!(1 < 2)) \x7b 1 \x7d else " ++
  "\x7b if (true) \x7b 2 * 3 - -4 \x7d \x7d"

theorem evaluate_branchesText :
    (Parsed.ofSource branchesText {}).errors = [] ∧
      (programOf branchesText).every (!·.isCall) ∧ (programOf branchesText).every (·.chain ≤ 2) ∧
      (∃ v m, evaluate 1 (programOf branchesText) Machine.globalScope .initial = (.ok v, m) ∧
        ∀ f, v = .fault f → f.exceedsLimit → 510 < (programOf branchesText).height) ∧
      (programOf branchesText).height ≤ (2 + 3) * 499 + 3 := by
  have htext : branchesText.toList = _ ++ _ := String.toList_append
  rw [String.toList_ofList, String.toList_ofList] at htext
  obtain ⟨herrors, hcalls, hchain, hstride⟩ : (Parsed.ofSource branchesText {}).errors = [] ∧
      (programOf branchesText).every (!·.isCall) ∧ (programOf branchesText).every (·.chain ≤ 2) ∧
      stride (programOf branchesText) = 3 := by
    rw [programOf, Parsed.ofSource, Token.scan_of_toList htext]
    decide +kernel
  obtain ⟨⟨v, m, hv, hlimit, -⟩, hheight, -⟩ := evaluate_parsed_within_limit herrors hcalls 1
  have hbound := hheight 2 hchain
  rw [hstride] at hbound
  exact ⟨herrors, hcalls, hchain, ⟨v, m, hv, hlimit⟩, hbound⟩

/-- **A sum that parses may be too long to be evaluated.** With one active call there is room for
510 active nodes, and this sum leads down through 511. -/
theorem evaluate_longSum :
    (Parsed.ofSource (longSum 508) {}).errors = [] ∧
      (programOf (longSum 508)).every (!·.isCall) ∧
      ∃ f, (evaluate 1 (programOf (longSum 508)) Machine.globalScope .initial).1 = .ok (.fault f) ∧
        f.exceedsLimit := by
  obtain ⟨hcalls, hfault⟩ := fault_of_longSum (show 508 + 2 = nestingLimit 1 from rfl)
  exact ⟨(parsed_longSum 508).1, hcalls, _, hfault, rfl⟩

end Eval

end Scriptlet
