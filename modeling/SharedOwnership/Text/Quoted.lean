import SharedOwnership.Text.Printable

/-!
# Quoted text

The quoted form of a text stands between double quotes. Quotes and backslashes inside are escaped
by a backslash, the usual control characters have a letter, and every other character that is not
printable is written by its code point.

## Main definitions

* `escapeChar` — one character of the quoted form.
* `quote` — the quoted form of a text.
-/

namespace SharedOwnership.Text

/-- A number in lower-case hexadecimal digits, without leading zeros. -/
def hexadecimal (n : Nat) : String := String.ofList (Nat.toDigits 16 n)

/-- A character as it is written between the quotes. -/
def escapeChar (c : Char) : String :=
  if c = '\x00' then "\\0"
  else if c = '\t' then "\\t"
  else if c = '\r' then "\\r"
  else if c = '\n' then "\\n"
  else if c = '"' then "\\\""
  else if c = '\\' then "\\\\"
  else if isPrintable c then c.toString
  else "\\u\x7b" ++ hexadecimal c.toNat ++ "\x7d"

/-- The quoted form of a text. -/
def quote (s : String) : String := "\"" ++ String.join (s.toList.map escapeChar) ++ "\""

end SharedOwnership.Text
