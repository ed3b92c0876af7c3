import OpGraph.Text.Combining
import OpGraph.Text.Unprintable

/-!
# Quoted texts

A text is shown between double quotes.  The quote, the backslash and four control characters have
a short escape; every other character without a glyph, and every combining character, is replaced
by its code in hexadecimal.  All other characters stand for themselves.
-/

namespace OpGraph.Text

/-- The code of a character as lower-case hexadecimal digits without leading zeros. -/
def hexCode (character : Char) : List Char :=
  Nat.toDigits 16 character.toNat

/-- The way one character is shown inside double quotes. -/
def escape (character : Char) : List Char :=
  match character with
  | '\x00' => ['\\', '0']
  | '\t' => ['\\', 't']
  | '\n' => ['\\', 'n']
  | '\r' => ['\\', 'r']
  | '"' => ['\\', '"']
  | '\\' => ['\\', '\\']
  | other =>
    if isCombining other || isUnprintable other then
      ['\\', 'u', '\x7b'] ++ hexCode other ++ ['\x7d']
    else
      [other]

/-- A text between double quotes, with its special characters escaped. -/
def quoted (text : String) : String :=
  String.ofList ('"' :: text.toList.flatMap escape ++ ['"'])

end OpGraph.Text
