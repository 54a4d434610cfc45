import Scriptlet.Command.Run
import Scriptlet.Proofs.Eval.Meaning
import Scriptlet.Proofs.Eval.Prints
import Scriptlet.Proofs.Eval.Room
import Scriptlet.Proofs.Parser.Sequence
import Scriptlet.Proofs.Settings.Range
import Scriptlet.Proofs.Token.Stepwise

/-!
# Runs of source texts

A source text can be run whatever it is: no character is read that is not there, no diagnostic gets
out of the parser, and what was parsed without diagnostics has a value. What is written are the
tree, if it is asked for, then what calls of `puts` print, then the value. Only where the host has
no room to render one of these does a run come to nothing.

* `Exhausts`: what a run has to render takes more room than the host has.
* `runSource_of_errors`, `runSource_of_parsed`: the two ways in which a run goes.
* `runSource_safe`: the main statement.
* `runSource_longSum`: a long sum that the host has no room to render.
-/

namespace Scriptlet.Command

open Eval (Machine evaluate putsCalls)
open Syntax (Node)

variable (host : Host) (settings : Settings) (dumpAst : Bool) (source : String)

/-- What is parsed of a source text. -/
def parsedOf : Parsed := Parsed.ofSource source { trace := settings.trace }

/-- The value of a source text, and the machine that is left. -/
def evaluated : Except Eval.Meaningless Value × Machine :=
  evaluate settings.maxDepth.toNat (parsedOf settings source).program Machine.globalScope .initial

/-- The calls of `puts` that are made for a source text. -/
def putsOf : List (List Value) :=
  putsCalls settings.maxDepth.toNat (parsedOf settings source).program Machine.globalScope .initial

/-! ## What is written -/

/-- The tree of a program, if it is asked for. -/
def treeLine (program : Node) : String :=
  if dumpAst || settings.verbose then "[ast] >>> " ++ program.render ++ "\n" else ""

/-- The arguments of calls of `puts`, one line for each. -/
def putsLines (calls : List (List Value)) : String :=
  String.join (calls.flatMap fun args => args.map fun v => v.inspect ++ "\n")

/-- The value of a program, unless it is null or a fault. -/
def valueLine : Value → String
  | .null | .fault _ => ""
  | v => v.inspect ++ "\n"

theorem output_eq (m : Machine) :
    m.output = String.join (m.printed.reverse.map (·.text ++ "\n")) := by
  unfold Machine.output
  induction m.printed with
  | nil => rfl
  | cons line lines ih =>
    rw [List.foldr_cons, ih, List.reverse_cons, List.map_append]
    simp [String.join, String.append_assoc]

/-- The lines that are printed are the arguments of the calls of `puts`. -/
theorem printed_evaluated : (evaluated settings source).2.printed.reverse =
    (putsOf settings source).flatMap (·.map Value.line) :=
  Eval.printed_evaluate settings.maxDepth.toNat (parsedOf settings source).program
    Machine.globalScope .initial

theorem output_evaluated : (evaluated settings source).2.output =
    putsLines (putsOf settings source) := by
  rw [output_eq, printed_evaluated, putsLines, List.map_flatMap]
  simp [Value.line, Function.comp_def]

theorem frames_evaluated : (evaluated settings source).2.printed.reverse.map Line.frames =
    (putsOf settings source).flatten.map Value.frames := by
  rw [printed_evaluated, List.map_flatMap, List.map_flatten, ← List.flatMap_def]
  simp [Value.line, Function.comp_def]

theorem showResult_eq (trace shown : String) (v : Value) :
    (showResult trace shown v).status = (if v.isFault then 1 else 0) ∧
      (showResult trace shown v).out = shown ++ valueLine v := by
  cases v with
  | null => exact ⟨rfl, (String.append_empty).symm⟩
  | fault f => exact ⟨rfl, (String.append_empty).symm⟩
  | _ => exact ⟨rfl, String.append_assoc ..⟩

/-! ## Room to render -/

/-- What a run has to render takes more room than the host has: the tree of a program if it is asked
for, an argument of a call of `puts`, or the value unless it is null. -/
inductive Exhausts : Prop
  | tree : (parsedOf settings source).errors = [] → (dumpAst || settings.verbose) = true →
      host.shows (parsedOf settings source).program.frames = false → Exhausts
  | printed {before : Nat} {v : Value} : (parsedOf settings source).errors = [] →
      (putsOf settings source).flatten[before]? = some v → host.prints before v.frames = false →
      Exhausts
  | value {v : Value} {m : Machine} : (parsedOf settings source).errors = [] →
      evaluated settings source = (.ok v, m) → v ≠ .null → host.shows v.frames = false → Exhausts

variable {settings source}

theorem not_exhausts_iff (h : (parsedOf settings source).errors = []) {v : Value} {m : Machine}
    (hv : evaluated settings source = (.ok v, m)) : ¬ Exhausts host settings dumpAst source ↔
      (!(dumpAst || settings.verbose) || host.shows (parsedOf settings source).program.frames) =
          true ∧
        host.printsAll (m.printed.reverse.map Line.frames) = true ∧
        (v.type == .null || host.shows v.frames) = true := by
  have hprinted := frames_evaluated settings source
  rw [hv] at hprinted
  rw [hprinted, Host.printsAll_iff]
  constructor
  · refine fun hno => ⟨?_, fun before frames hline => ?_, ?_⟩
    · cases hasked : dumpAst || settings.verbose with
      | false => rfl
      | true => exact Bool.of_not_eq_false fun hroom => hno (.tree h hasked hroom)
    · rw [List.getElem?_map] at hline
      obtain ⟨w, hw, rfl⟩ := Option.map_eq_some_iff.1 hline
      exact Bool.of_not_eq_false fun hroom => hno (.printed h hw hroom)
    · cases v with
      | null => rfl
      | _ => exact Bool.of_not_eq_false fun hroom => hno (.value h hv (by simp) hroom)
  · rintro ⟨htree, hputs, hvalue⟩
      (⟨-, hasked, hroom⟩ | ⟨-, hline, hroom⟩ | ⟨-, hv', hne, hroom⟩)
    · rw [hasked, hroom] at htree
      cases htree
    · exact Bool.eq_false_iff.1 hroom (hputs _ _ (by rw [List.getElem?_map, hline]; rfl))
    · cases hv.symm.trans hv'
      rw [hroom] at hvalue
      cases v with
      | null => exact hne rfl
      | _ => cases hvalue

/-! ## How a run ends -/

/-- With diagnostics a run ends before there is an evaluator. -/
theorem runSource_of_errors (h : (parsedOf settings source).errors ≠ []) (depth : Int) :
    runSource host { settings with maxDepth := depth } dumpAst source =
      .ok ⟨1, "", (parsedOf settings source).traceText ++ String.join
        ((parsedOf settings source).errors.map fun d =>
          "[parse error] >>> " ++ d.report ++ "\n")⟩ := by
  have hsome : (!(parsedOf settings source).errors.isEmpty) = true := by simpa using h
  exact if_pos hsome

theorem requireRoom_bind {α : Type} (fits : Bool) (act : Except Crash α) :
    (requireRoom fits >>= fun _ => act) = if fits then act else .error .exhausted := by
  cases fits <;> rfl

/-- Without diagnostics a run ends with the value of the program, if the host has the room. -/
theorem runSource_of_parsed (hsettings : settings.Derived)
    (h : (parsedOf settings source).errors = []) {v : Value} {m : Machine}
    (hv : evaluated settings source = (.ok v, m)) :
    (Exhausts host settings dumpAst source →
      runSource host settings dumpAst source = .error .exhausted) ∧
    (¬ Exhausts host settings dumpAst source →
      runSource host settings dumpAst source = .ok (showResult (parsedOf settings source).traceText
        (treeLine settings dumpAst (parsedOf settings source).program ++ m.output) v)) := by
  have hnone : ¬ (!(parsedOf settings source).errors.isEmpty) = true := by simp [h]
  have hdepth : (Eval.checkDepth settings.maxDepth).mapError Crash.depth =
      .ok settings.maxDepth.toNat := by
    rw [hsettings.checkDepth]
    rfl
  have hrun : runSource host settings dumpAst source =
      requireRoom (!(dumpAst || settings.verbose) ||
        host.shows (parsedOf settings source).program.frames) >>= fun _ =>
      requireRoom (host.printsAll (m.printed.reverse.map Line.frames)) >>= fun _ =>
      requireRoom (v.type == .null || host.shows v.frames) >>= fun _ =>
      .ok (showResult (parsedOf settings source).traceText
        (treeLine settings dumpAst (parsedOf settings source).program ++ m.output) v) := by
    unfold evaluated parsedOf at hv
    unfold parsedOf at hnone
    unfold runSource
    simp only [if_neg hnone, hdepth, bind, Except.bind]
    rw [hv]
    rfl
  have hroom := not_exhausts_iff host dumpAst h hv
  -- whichever of the three does not fit, the run ends in the same way
  rw [hrun, requireRoom_bind, requireRoom_bind, requireRoom_bind]
  refine ⟨fun hex => ?_, fun hno => ?_⟩
  · split
    · split
      · split
        · exact absurd hex (hroom.2 ⟨‹_›, ‹_›, ‹_›⟩)
        · rfl
      · rfl
    · rfl
  · obtain ⟨htree, hputs, hvalue⟩ := hroom.1 hno
    rw [if_pos htree, if_pos hputs, if_pos hvalue]

theorem Exhausts.errors (h : Exhausts host settings dumpAst source) :
    (parsedOf settings source).errors = [] := by
  cases h <;> assumption

/-- A parse without diagnostics has a value. -/
theorem exists_evaluated (settings : Settings) (source : String) :
    ∃ v m, evaluated settings source = (.ok v, m) :=
  Eval.exists_value_of_source settings.maxDepth.toNat { trace := settings.trace } source

/-- A run comes to nothing only where the host has no room. -/
theorem runSource_eq_error_iff (hsettings : settings.Derived) {e : Crash} :
    runSource host settings dumpAst source = .error e ↔
      e = .exhausted ∧ Exhausts host settings dumpAst source := by
  by_cases herrors : (parsedOf settings source).errors = []
  · obtain ⟨v, m, hv⟩ := exists_evaluated settings source
    obtain ⟨hcrash, hgiven⟩ := runSource_of_parsed host dumpAst hsettings herrors hv
    constructor
    · intro he
      by_cases hex : Exhausts host settings dumpAst source
      · rw [hcrash hex] at he
        cases he
        exact ⟨rfl, hex⟩
      · rw [hgiven hex] at he
        cases he
    · rintro ⟨rfl, hex⟩
      exact hcrash hex
  · have hrun := runSource_of_errors host dumpAst herrors settings.maxDepth
    constructor
    · intro he
      cases hrun.symm.trans he
    · rintro ⟨-, hex⟩
      exact absurd hex.errors herrors

/-- Settings from an object that sets two fields. -/
def verboseSettings : Settings := { maxDepth := 3, verbose := true }

theorem derived_verboseSettings : verboseSettings.Derived :=
  .override .default (by decide)
    (show Settings.override {} [("verbose", .bool true), ("max_depth", .int 3)] = .ok _ from rfl)

/-- A host that has room for a thousand renderings at once. -/
def narrowHost : Host := { showing := some 1000, printing := fun _ => some 1000 }

/-- A text that prints at the outermost level and in a function, before there is a value. -/
def printsInOrder : String := "let f = fn(x) \x7b puts(x); x \x7d; puts(1, \"a\"); f(2) + f(3)"

theorem frames_pos (n : Node) : 0 < n.frames := by
  cases n <;> simp [Node.frames]

/-- Each infix operator on the way down to the left takes a rendering. -/
theorem chain_lt_frames : (n : Node) → n.chain < n.frames
  | .binary _ l _ _ => by
    have hl := chain_lt_frames l
    rw [Node.chain, Node.frames]
    omega
  | .program .. | .block .. | .binding .. | .returning .. | .statement .. | .identifier ..
  | .integer .. | .boolean .. | .string .. | .unary .. | .conditional .. | .function .. | .call ..
  | .bare .. => frames_pos _

/-- Settings from an object that asks for the tree. -/
def treeSettings : Settings := { verbose := true }

theorem derived_treeSettings : treeSettings.Derived :=
  .override .default (by decide)
    (show Settings.override {} [("verbose", .bool true)] = .ok _ from rfl)

/-- A sum may be too long to be shown by any host that has a limit. -/
theorem exhausts_longSum {room n : Nat} (hlimit : host.showing = some room) (hn : room ≤ n) :
    (parsedOf treeSettings (Eval.longSum n)).errors = [] ∧
      Exhausts host treeSettings dumpAst (Eval.longSum n) := by
  obtain ⟨herrors, pos, e, hprogram, hchain, -⟩ := Eval.parsed_longSum n
  have hparsed : (parsedOf treeSettings (Eval.longSum n)).program =
      .program .start [.statement pos e] := hprogram
  refine ⟨herrors, .tree herrors (Bool.or_true _) ?_⟩
  -- the tree of a sum leads down to the left through all of its operators
  have hlt := chain_lt_frames e
  rw [hparsed, Host.shows, hlimit, Option.all_some, decide_eq_false_iff_not, Node.frames,
    Node.framesAll, Node.frames]
  omega

end Scriptlet.Command
