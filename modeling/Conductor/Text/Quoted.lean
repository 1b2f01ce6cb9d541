import Conductor.Text.Shown

/-!
# Quoted texts

A text that is shown inside another value is quoted: between single quotes, or between double
quotes if it holds a single quote and no double one. Inside, the backslash and the chosen quote
are escaped, line breaks and tabs have short escapes, and every other character that cannot be
shown is written by its code in hexadecimal.
-/

namespace Conductor.Text

/-- A number in lower-case hexadecimal with at least `width` digits. -/
def hex (width n : Nat) : List Char :=
  let ds := Nat.toDigits 16 n
  List.replicate (width - ds.length) '0' ++ ds

/-- The escape of a character by its code, as short as the code allows. -/
def codeEscape (c : Char) : List Char :=
  let n := c.toNat
  if n < 0x100 then '\\' :: 'x' :: hex 2 n
  else if n < 0x10000 then '\\' :: 'u' :: hex 4 n
  else '\\' :: 'U' :: hex 8 n

/-- A character inside quotes. -/
def quoteChar (mark c : Char) : List Char :=
  if c == mark || c == '\\' then ['\\', c]
  else if c == '\n' then ['\\', 'n']
  else if c == '\t' then ['\\', 't']
  else if c == '\r' then ['\\', 'r']
  else if isShown c then [c]
  else codeEscape c

/-- The quotation mark for a text: the single one unless only the double one needs no escape. -/
def quoteMark (cs : List Char) : Char :=
  if cs.contains '\'' && !cs.contains '"' then '"' else '\''

/-- A text in quotes. -/
def quoted (s : String) : String :=
  let cs := s.toList
  let mark := quoteMark cs
  String.ofList (mark :: cs.flatMap (quoteChar mark) ++ [mark])

/-- A text in which every character beyond the first 128 is written by its code. -/
def narrowed (s : String) : String :=
  String.ofList (s.toList.flatMap fun c => if c.toNat < 128 then [c] else codeEscape c)

end Conductor.Text
