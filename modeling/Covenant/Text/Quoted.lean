import Covenant.Text.DefaultIgnorable
import Covenant.Text.GraphemeExtend
import Covenant.Text.Unprintable

/-!
# Covenant — quoted text

String literals are shown between double quotes. The quote, the backslash and the common control
characters have two-character escapes; any other character that would not show as itself is
written by its code point in hexadecimal, as in `\u{301}`.
-/

namespace Covenant.Text

/-- The two halfwidth katakana sound marks. They are the only letters with the property
Grapheme_Extend, and stand in a cell of their own. -/
def isHalfwidthSoundMark (c : Char) : Bool :=
  c == '\uff9e' || c == '\uff9f'

/-- A character that prints on top of the one before it. -/
def isAttached (c : Char) : Bool :=
  isGraphemeExtend c && !isHalfwidthSoundMark c

/-- A character that is written by its code point inside quotes: one that does not show as itself
when it stands alone. -/
def needsCodePoint (c : Char) : Bool :=
  isAttached c || isUnprintable c || isDefaultIgnorable c

/-- One character as it stands inside quotes. -/
def escapeChar (c : Char) : List Char :=
  match c with
  | '\x00' => ['\\', '0']
  | '\t' => ['\\', 't']
  | '\r' => ['\\', 'r']
  | '\n' => ['\\', 'n']
  | '"' => ['\\', '"']
  | '\\' => ['\\', '\\']
  | c =>
    if needsCodePoint c then
      ['\\', 'u', '\x7b'] ++ Nat.toDigits 16 c.toNat ++ ['\x7d']
    else
      [c]

/-- The text between double quotes, every character escaped as `escapeChar` says. -/
def quote (text : String) : String :=
  String.ofList ('"' :: text.toList.flatMap escapeChar ++ ['"'])

end Covenant.Text
