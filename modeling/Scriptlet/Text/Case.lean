/-!
# Letter case

Keywords and the words of a setting are recognised whatever the case of their letters.

* `lower` makes the ASCII capitals small. No other letter has one of the letters of these words as
  its small form, so comparing with them needs no more.
-/

namespace Scriptlet.Text

/-- The text with its ASCII capitals made small. -/
def lower (s : String) : String := s.map Char.toLower

end Scriptlet.Text
