/-!
# The host

The host runs the interpreter, and may have room for so many calls inside one another only. The
parser and the evaluator keep limits of their own and ask for the room that these need. What is
done outside of them takes the room that is left, and so does what a program prints, where the room
depends on how far the evaluator has got.
-/

namespace Scriptlet

/-- The room that the host leaves for calls inside one another: for the arrays and objects that are
open while JSON is read, for rendering a program or its value, and for rendering a line that a
program prints, by the number of lines before it. Without a number there is no limit. -/
structure Host where
  containers : Option Nat := none
  showing : Option Nat := none
  printing : Nat → Option Nat := fun _ => none

namespace Host

/-- There is room to render a program or its value with `frames` calls inside one another. -/
def shows (host : Host) (frames : Nat) : Bool := host.showing.all (frames ≤ ·)

/-- There is room to render a line with `frames` calls inside one another, behind `before` lines. -/
def prints (host : Host) (before frames : Nat) : Bool := (host.printing before).all (frames ≤ ·)

/-- There is room to render lines that take so many calls each, one line after the other. -/
def printsAll (host : Host) (lines : List Nat) : Bool :=
  lines.zipIdx.all fun (frames, before) => host.prints before frames

theorem printsAll_iff {host : Host} {lines : List Nat} : host.printsAll lines = true ↔
    ∀ before frames, lines[before]? = some frames → host.prints before frames = true := by
  rw [printsAll, List.all_eq_true]
  constructor
  · exact fun h before frames hline => h (frames, before) (List.mem_zipIdx_iff_getElem?.2 hline)
  · exact fun h line hline => h line.2 line.1 (List.mem_zipIdx_iff_getElem?.1 hline)

end Host

end Scriptlet
