import Scriptlet.Proofs.Eval.Discipline
import Scriptlet.Proofs.Parser.Leaves

/-!
# The values of a session

What programs can make of values, however many of them are run one after the other in one global
scope. Integers stay words, a function has a scope that exists, no scope binds a fault, and the way
outwards from a scope ends. The one exception is the length of a string, which no word bounds; so
the texts may not mention `len`.

* `Value.Sound`: a value that a session can bind.
* `Heap.Sound`: all scopes bind such values, and none stands inside itself.
* `wordy`: the rule that a session keeps.
* `session_sound`: the main statement, for every text after any others.
-/

namespace Scriptlet

open Syntax (Node)

/-! ## Words -/

theorem Word.wrap_range (n : Int) : Word.least ≤ Word.wrap n ∧ Word.wrap n ≤ Word.greatest := by
  have hlow : -((Word.modulus : Int) / 2) ≤ n.bmod Word.modulus := Int.le_bmod (by decide)
  have hhigh : n.bmod Word.modulus < ((Word.modulus : Int) + 1) / 2 := Int.bmod_lt (by decide)
  unfold Word.wrap Word.least Word.greatest
  unfold Word.modulus at hlow hhigh ⊢
  omega

/-! ## Values and scopes -/

/-- The values that a session can bind: all but faults, with integers that are words and functions
whose scope exists. A value on its way back is such a value if what it returns is. -/
def Value.Sound (h : Heap) : Value → Prop
  | .integer n => Word.least ≤ n ∧ n ≤ Word.greatest
  | .function _ _ scope => scope < h.nextId
  | .returning v => v.Sound h
  | .fault _ => False
  | .boolean _ | .null | .string _ | .builtin _ => True

/-- Every value that is bound is sound, and from every scope the way outwards leads over scopes that
exist, never to one twice, until there is none around. -/
structure Heap.Sound (h : Heap) : Prop where
  bound : ∀ i, ∀ b ∈ (h.scope i).bindings, b.2.Sound h
  outward : ∀ i < h.nextId, h.Outward i (h.chain i)
  exist : ∀ i < h.nextId, ∀ j ∈ h.chain i, j < h.nextId
  acyclic : ∀ i < h.nextId, (h.chain i).Nodup

/-! ## The rule -/

/-- The trees in which `len` does not occur give words and functions. -/
def wordy : Discipline where
  tree _ n := n.every (Node.avoids ["len"])
  number n := Word.least ≤ n ∧ n ≤ Word.greatest
  builtin b := b ≠ .len
  part hn hc := Syntax.Node.every_of_mem_parts hn hc
  body hn := Syntax.Node.every_body hn
  literal hn := by
    have hself := Syntax.Node.self_of_every hn
    simpa [Node.avoids] using hself
  name {_ _ text b} hn hb := by
    have hself : (!List.contains ["len"] text) = true := Syntax.Node.self_of_every hn
    rintro rfl
    -- the builtin function of that name is found by no other name
    unfold Builtin.ofName? at hb
    split at hb
    · simp at hself
    all_goals cases hb
  wrapped := Word.wrap_range
  length _ h := absurd rfl h

theorem sound_of_admits {h : Heap} {v : Value} (hv : wordy.admits h v) : v.Sound h := by
  induction v with
  | integer n => exact hv
  | function params body scope => exact hv.1
  | returning v ih => exact ih hv
  | fault f => exact hv
  | boolean | null | string | builtin => trivial

theorem sound_of_holds {h : Heap} (hh : wordy.Holds h) : h.Sound where
  bound i b hb := sound_of_admits (hh.admits i b hb)
  outward := hh.linked.outward
  exist _ hi _ hj := hh.linked.lt_of_mem_chain hi hj
  acyclic := hh.linked.nodup_chain

theorem not_allowsBare_wordy : ¬ wordy.AllowsBare := by
  rintro ⟨k, pos, hbare⟩
  cases hbare

/-! ## Sessions -/

namespace Eval

/-- **Every value of a session is sound.** After any texts that do not mention `len`, one more of
them gives a fault or a sound value, and leaves scopes that are sound: with malformed statements
dropped, with any number of calls allowed, and whatever powers of doubles are. -/
theorem session_sound (maxDepth : Nat) (cfg : Parser.Config) (sources : List String)
    (source : String) (hlen : ∀ s ∈ source :: sources, Token.occurs "len" s = false) :
    let programs := sources.map fun s => (Parsed.ofSource s cfg).program
    let run := evaluate maxDepth (Parsed.ofSource source cfg).program Machine.globalScope
      (Machine.after maxDepth programs)
    (∃ v, run.1 = .ok v ∧ (v.isFault ∨ v.Sound run.2.heap)) ∧ run.2.heap.Sound := by
  intro programs run
  have hclean : ∀ s ∈ source :: sources,
      (Parsed.ofSource s cfg).program.every (Node.avoids ["len"]) := by
    intro s hs
    refine Parser.every_avoids_ofSource cfg fun name hname => ?_
    rw [List.mem_singleton.1 hname]
    exact hlen s hs
  have hprograms : ∀ p ∈ programs, wordy.tree 0 p := by
    intro p hp
    obtain ⟨s, hs, rfl⟩ := List.mem_map.1 hp
    exact hclean s (List.mem_cons_of_mem _ hs)
  obtain ⟨hheap, hg⟩ := Machine.holds_after maxDepth hprograms
  have hplaced := placed_global hg (D := wordy) (hclean source List.mem_cons_self)
  have hrun := obeys_evaluate wordy maxDepth _ _ _ hheap hplaced
  refine ⟨?_, sound_of_holds hrun.holds⟩
  -- a run that cannot go on has come to a tree with no meaning, and there is none
  cases hresult : run.1 with
  | error e => exact absurd (hrun.stuck e hresult) not_allowsBare_wordy
  | ok v => exact ⟨v, rfl, (hrun.result v hresult).imp id sound_of_admits⟩

/-- Binds a function that another one made, and that one on its way back, with a malformed
statement in between. -/
def bindsMultiple : String :=
  "let f = fn(n) { fn(x) { x * n } }(9223372036854775807); let = 1; let g = if (f) { return f }"

theorem session_sound_bindsMultiple :
    (∀ s ∈ ["f(3)", bindsMultiple], Token.occurs "len" s = false) ∧
      let programs := [bindsMultiple].map fun s => (Parsed.ofSource s {}).program
      let run := evaluate 4 (Parsed.ofSource "f(3)" {}).program Machine.globalScope
        (Machine.after 4 programs)
      ((∃ v, run.1 = .ok v ∧ (v.isFault ∨ v.Sound run.2.heap)) ∧ run.2.heap.Sound) ∧
        run.1.toOption.map Value.inspect = some "9223372036854775805" ∧
        (run.2.heap.find? 0 "g").map Value.type = some .returning := by
  have htext : bindsMultiple.toList = _ := String.toList_ofList
  have hfirst : Token.occurs "len" bindsMultiple = false := by
    rw [Token.occurs, Token.scan_of_toList htext]
    decide +kernel
  have hlen : ∀ s ∈ ["f(3)", bindsMultiple], Token.occurs "len" s = false :=
    List.forall_mem_cons.2 ⟨by decide +kernel, List.forall_mem_singleton.2 hfirst⟩
  refine ⟨hlen, session_sound 4 {} [bindsMultiple] "f(3)" hlen, ?_⟩
  rw [List.map_singleton, Parsed.ofSource, Parsed.ofSource, Token.scan_of_toList htext]
  decide +kernel

end Eval

end Scriptlet
