import Quadratize.Text.Printable

/-!
# Quoted texts

A text stands between double quotes. Quotes, backslashes and the usual control characters are
written with a backslash, other unprintable characters by their code point in braces.
-/

namespace Quadratize.Text

/-- The code point of a character in braces. -/
def codePoint (c : Char) : List Char :=
  ['\\', 'u', '\x7b'] ++ Nat.toDigits 16 c.toNat ++ ['\x7d']

/-- How a character is written inside quotes. -/
def quoteChar (c : Char) : List Char :=
  if c = '"' then ['\\', '"']
  else if c = '\\' then ['\\', '\\']
  else if c = '\n' then ['\\', 'n']
  else if c = '\r' then ['\\', 'r']
  else if c = '\t' then ['\\', 't']
  else if c.toNat = 0 then ['\\', '0']
  else if isPrintable c then [c]
  else codePoint c

/-- A text between double quotes. -/
def quoted (cs : List Char) : List Char :=
  '"' :: (cs.flatMap quoteChar ++ ['"'])

end Quadratize.Text
