import Mathlib
import Scriptlet.Proofs.Eval.Match
import Scriptlet.Proofs.Eval.Meaning

/-!
# Scopes follow the text

A tree is evaluated in as many scopes as there are functions around it in the text, and one more for
the global scope, whoever has called the function that it stands in. To say which tree is meant, the
programs are labelled: the place of a node tells how many functions are around it.

* `Heap.Lexical`: every function that is bound has the scopes that its literal stands in.
* `lexical`: the rule that labelled programs keep.
* `length_chain_eq_rank`: the main statement, for all that a run comes to.
-/

namespace Scriptlet

open Syntax (Node)

/-! ## Labels and scopes -/

/-- The scope of a function exists, and as many scopes are on the way outwards from it as functions
are around the body. The literal itself stands in one function less, so that these are one scope for
each function around the literal, and the global one. -/
def Value.Lexical (h : Heap) : Value → Prop
  | .function _ body scope => scope < h.nextId ∧ (h.chain scope).length = body.rank
  | .returning v => v.Lexical h
  | _ => True

/-- Every function that is bound has the scopes that its literal stands in. -/
def Heap.Lexical (h : Heap) : Prop := ∀ i, ∀ b ∈ (h.scope i).bindings, b.2.Lexical h

theorem Heap.length_chain (h : Heap) (i : ScopeId) :
    (h.chain i).length = (h.scope i).around.length + 1 := rfl

/-! ## The rule -/

/-- A labelled tree is evaluated where its labels say. -/
def lexical : Discipline where
  tree k n := ∃ n₀ : Node, n₀.every (Node.avoids []) ∧ n = n₀.ranked k
  number _ := True
  builtin _ := True
  part := by
    rintro k _ c ⟨n₀, hn₀, rfl⟩ hc
    rw [Syntax.Node.parts_ranked] at hc
    obtain ⟨c₀, hc₀, rfl⟩ := List.mem_map.1 hc
    exact ⟨c₀, Syntax.Node.every_of_mem_parts hn₀ hc₀, rfl⟩
  body := by
    rintro k pos params b ⟨n₀, hn₀, heq⟩
    -- the tree is labelled as a function only if it is one
    cases n₀ with
    | function pos₀ params₀ b₀ =>
      exact ⟨b₀, Syntax.Node.every_body hn₀, (Node.function.inj heq).2.2⟩
    | _ => cases heq
  literal _ := trivial
  name _ _ := trivial
  wrapped _ := trivial
  length _ _ := trivial

theorem rank_of_lexical {k : Nat} {n : Node} (hn : lexical.tree k n) : n.rank = k := by
  obtain ⟨n₀, hn₀, rfl⟩ := hn
  refine Syntax.Node.rank_ranked ?_ k
  rintro pos rfl
  cases hn₀

theorem lexical_of_admits {h : Heap} {v : Value} (hv : lexical.admits h v) : v.Lexical h := by
  induction v with
  | function params body scope =>
    obtain ⟨hscope, hbody⟩ := hv
    refine ⟨hscope, ?_⟩
    rw [rank_of_lexical hbody, Heap.length_chain]
  | returning v ih => exact ih hv
  | _ => trivial

theorem lexical_of_holds {h : Heap} (hh : lexical.Holds h) : h.Lexical :=
  fun i b hb => lexical_of_admits (hh.admits i b hb)

namespace Eval

theorem lexical_ofSource (cfg : Parser.Config) (source : String) :
    lexical.tree 0 ((Parsed.ofSource source cfg).program.ranked 0) :=
  ⟨_, meaningful_ofSource cfg source 0, rfl⟩

/-! ## Sessions -/

/-- **Programs do the same when they are labelled.** -/
theorem matched_ranked (maxDepth : Nat) (programs : List Node) :
    Matched (Machine.after maxDepth programs)
      (Machine.after maxDepth (programs.map (Node.ranked 0))) := by
  refine ⟨?_, (Machine.reached_after maxDepth programs).resting.heap⟩
  rw [← Machine.after_unplaced, ← Machine.after_unplaced, List.map_map]
  congr 1
  exact List.map_congr_left fun p _ => Syntax.Node.unplaced_ranked 0 p

/-- **Scoping is lexical.** After any texts, and with any room for active nodes, the run of one more
comes to what the run of the labelled programs comes to; and there each tree has a label that tells
how many scopes are around the one that it is evaluated in, and each function that is bound has the
scopes that its literal stands in. -/
theorem length_chain_eq_rank (maxDepth : Nat) (cfg : Parser.Config) (sources : List String)
    (source : String) :
    let programs := sources.map fun s => (Parsed.ofSource s cfg).program
    let program := (Parsed.ofSource source cfg).program
    let plain := Machine.after maxDepth programs
    let labelled := Machine.after maxDepth (programs.map (Node.ranked 0))
    labelled.unplaced = plain.unplaced ∧ labelled.heap.Lexical ∧
      ∀ budget b n i m, Visits maxDepth budget program Machine.globalScope plain b n i m →
        ∃ n₁ m₁,
          Visits maxDepth budget (program.ranked 0) Machine.globalScope labelled b n₁ i m₁ ∧
          n₁.unplaced = n.unplaced ∧ m₁.unplaced = m.unplaced ∧
          (m.heap.chain i).length = 1 + n₁.rank ∧ m₁.heap.Lexical := by
  intro programs program plain labelled
  have hlabelled : ∀ p ∈ programs.map (Node.ranked 0), lexical.tree 0 p := by
    intro p hp
    obtain ⟨q, hq, rfl⟩ := List.mem_map.1 hp
    obtain ⟨s, -, rfl⟩ := List.mem_map.1 hq
    exact lexical_ofSource cfg s
  obtain ⟨hheap, hg⟩ := Machine.holds_after maxDepth hlabelled
  have hmatched : Matched plain labelled := matched_ranked maxDepth programs
  refine ⟨hmatched.same, lexical_of_holds hheap, fun budget b n i m hvisits => ?_⟩
  obtain ⟨n₁, m₁, hvisits₁, hn₁, hm₁⟩ :=
    hvisits.matched (Syntax.Node.unplaced_ranked 0 program) hmatched
  have hplaced := placed_global hg (D := lexical) (lexical_ofSource cfg source)
  obtain ⟨hheap₁, hplaced₁⟩ := hvisits₁.placed hheap hplaced
  refine ⟨n₁, m₁, hvisits₁, hn₁, hm₁.same, ?_, lexical_of_holds hheap₁⟩
  rw [← hm₁.chain, Heap.length_chain, rank_of_lexical hplaced₁.tree, Nat.add_comm]

section

open Syntax.Node

/-- Calls a function that another one has made. -/
def callsInner : String := "fn(x) { fn() { x } }(1)()"

/-- The body of the function that is made. -/
def innerBody : Node := block ⟨1, 14⟩ [statement ⟨1, 16⟩ (identifier ⟨1, 16⟩ "x")]

/-- The call that makes the function. -/
def makesInner : Node :=
  call ⟨1, 21⟩ (function .start [identifier ⟨1, 4⟩ "x"]
    (block ⟨1, 7⟩ [statement ⟨1, 9⟩ (function ⟨1, 9⟩ [] innerBody)])) [integer ⟨1, 22⟩ 1]

/-- The machine that it leaves. -/
def innerMade : Machine := ⟨⟨#[⟨[], []⟩, ⟨[("x", .integer 1)], [0]⟩]⟩, [], 0, 3⟩

theorem evalNode_makesInner :
    evalNode 5 6 makesInner 0 { Machine.initial with nesting := 3 } =
      (.ok (.function [] innerBody 1), innerMade) := by
  cbv

/-- The body of the inner function is evaluated in one call only, but in three scopes: two functions
are around it. -/
theorem length_chain_innerBody :
    let m := innerMade.entered 1 [] []
    Visits 5 9 (Parsed.ofSource callsInner {}).program 0 .initial 6 innerBody 2 m ∧
      m.depth = 1 ∧ (m.heap.chain 2).length = 3 ∧
      ∃ n₁ m₁, Visits 5 9 ((Parsed.ofSource callsInner {}).program.ranked 0) 0 .initial 6 n₁ 2 m₁ ∧
        n₁.unplaced = innerBody.unplaced ∧ m₁.unplaced = m.unplaced ∧ n₁.rank = 2 ∧
        m₁.heap.Lexical := by
  intro m
  have hprogram : (Parsed.ofSource callsInner {}).program =
      program .start [statement .start (call ⟨1, 24⟩ makesInner [])] := by cbv
  have hvisits : Visits 5 9 (Parsed.ofSource callsInner {}).program 0 .initial 6 innerBody 2 m := by
    rw [hprogram]
    exact .inside (.program .here) (.inside .statement
      (.inside (.body evalNode_makesInner rfl rfl (by decide)) .here))
  have hlength : (m.heap.chain 2).length = 3 := by decide +kernel
  obtain ⟨n₁, m₁, hvisits₁, hn₁, hm₁, hrank, hlexical⟩ :=
    (length_chain_eq_rank 5 {} [] callsInner).2.2 9 6 innerBody 2 m hvisits
  exact ⟨hvisits, rfl, hlength, n₁, m₁, hvisits₁, hn₁, hm₁, by omega, hlexical⟩

end

end Eval

end Scriptlet
