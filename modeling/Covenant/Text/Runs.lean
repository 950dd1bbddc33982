/-!
# Covenant — runs of code points

A class of characters is given by the lengths of runs of code points, from zero up. The runs are
outside and inside of the class in turn, and behind the last one no code point is in the class.
-/

namespace Covenant.Text

/-- The code point is in one of the runs that are inside of the class. -/
def inRuns : List Nat → Nat → Bool
  | outside :: inside :: rest, codePoint =>
    if codePoint < outside then false
    else codePoint - outside < inside || inRuns rest (codePoint - outside - inside)
  | _, _ => false

end Covenant.Text
