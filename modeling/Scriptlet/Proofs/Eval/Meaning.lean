import Scriptlet.Proofs.Eval.Discipline
import Scriptlet.Proofs.Parser.Leaves

/-!
# Runs of parsed texts

What was parsed of texts has a meaning everywhere. So a run of it cannot get stuck, whatever texts
were run before it in the same global scope: it comes to a value, or to a fault.

* `meaningful`: the rule that allows all trees with a meaning.
* `holds_after_sources`: texts that are run one after the other keep it.
* `exists_value_of_parsed`: what stands in a parsed text has a value.
-/

namespace Scriptlet

open Syntax (Node)

/-- All trees with a meaning are allowed, and all that comes of them. -/
def meaningful : Discipline where
  tree _ n := n.every (Node.avoids [])
  number _ := True
  builtin _ := True
  part hn hc := Syntax.Node.every_of_mem_parts hn hc
  body hn := Syntax.Node.every_body hn
  literal _ := trivial
  name _ _ := trivial
  wrapped _ := trivial
  length _ _ := trivial

theorem not_allowsBare_meaningful : ¬ meaningful.AllowsBare := by
  rintro ⟨k, pos, hbare⟩
  cases hbare

theorem meaningful_ofSource (cfg : Parser.Config) (source : String) (k : Nat) :
    meaningful.tree k (Parsed.ofSource source cfg).program :=
  Parser.every_avoids_ofSource cfg fun _ hname => by cases hname

namespace Eval

variable (depth maxDepth : Nat) (cfg : Parser.Config) (sources : List String)

theorem holds_after_sources :
    let m := Machine.after depth (sources.map fun s => (Parsed.ofSource s cfg).program)
    meaningful.Holds m.heap ∧ Machine.initial.heap.Grows m.heap := by
  refine Machine.holds_after depth fun p hp => ?_
  obtain ⟨s, -, rfl⟩ := List.mem_map.1 hp
  exact meaningful_ofSource cfg s 0

/-- **What stands in a parsed text has a value**, which may be a fault, in every scope that texts
leave. -/
theorem exists_value_of_parsed {source : String} {e : Node}
    (he : e.Within (Parsed.ofSource source cfg).program) {i : ScopeId}
    (hi : i < (Machine.after depth
      (sources.map fun s => (Parsed.ofSource s cfg).program)).heap.nextId) :
    ∃ v, (evaluate maxDepth e i (Machine.after depth
      (sources.map fun s => (Parsed.ofSource s cfg).program))).1 = .ok v := by
  have hheap := (holds_after_sources depth cfg sources).1
  have htree : ∀ k, meaningful.tree k e := fun k => he.every (meaningful_ofSource cfg source k)
  have hrun := obeys_evaluate meaningful maxDepth e i _ hheap ⟨hi, htree _⟩
  cases hresult : (evaluate maxDepth e i (Machine.after depth
      (sources.map fun s => (Parsed.ofSource s cfg).program))).1 with
  | error err => exact absurd (hrun.stuck err hresult) not_allowsBare_meaningful
  | ok v => exact ⟨v, rfl⟩

/-- A text that is run on its own has a value. -/
theorem exists_value_of_source (source : String) : ∃ v m,
    evaluate maxDepth (Parsed.ofSource source cfg).program Machine.globalScope .initial =
      (.ok v, m) := by
  have hself : (Parsed.ofSource source cfg).program.Within (Parsed.ofSource source cfg).program :=
    .self
  have hscope : Machine.globalScope < (Machine.after 0 []).heap.nextId := Nat.zero_lt_one
  obtain ⟨v, hv⟩ := exists_value_of_parsed 0 maxDepth cfg [] hself hscope
  exact ⟨v, _, Prod.ext hv rfl⟩

end Eval

end Scriptlet
