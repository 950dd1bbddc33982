import Covenant.Text.Runs

/-!
# Covenant — characters shown as nothing

The code points with the property Default_Ignorable_Code_Point: joiners, variation selectors,
fillers and the like, which take no room when they are shown. Some of them are letters by their
general category, such as the Hangul fillers.
-/

namespace Covenant.Text

/-- Lengths of runs: characters without the property and with it, in turn. -/
def defaultIgnorableRuns : List Nat := [
  173, 1, 673, 1, 716, 1, 2882, 2, 1619, 2, 85, 5, 2043, 5, 26, 5, 49, 16, 4340, 1, 52379, 16, 239,
  1, 160, 1, 79, 9, 48295, 4, 5327, 8, 798341, 4096]

/-- A character that is shown as nothing at all. -/
def isDefaultIgnorable (c : Char) : Bool :=
  inRuns defaultIgnorableRuns c.toNat

end Covenant.Text
