/-!
# Escaped text

A string inside quotes : a quote and a backslash are written after a backslash, the
line feed, the carriage return and the tab as letters, every other control character as
four hexadecimal digits, and all else as itself.
-/

namespace MarkupTypes.Text.Escaped

/-- The lower-case hexadecimal digit of a number below sixteen. -/
def hexDigit (n : Nat) : Char :=
  if n < 10 then Char.ofNat ('0'.toNat + n) else Char.ofNat ('a'.toNat + (n - 10))

/-- How one character is written inside quotes. -/
def encodeChar (c : Char) : List Char :=
  if c = '"' then ['\\', '"']
  else if c = '\\' then ['\\', '\\']
  else if c = '\n' then ['\\', 'n']
  else if c = '\r' then ['\\', 'r']
  else if c = '\t' then ['\\', 't']
  else if c.toNat < 0x20 then
    ['\\', 'u', '0', '0', hexDigit (c.toNat / 16), hexDigit (c.toNat % 16)]
  else [c]

/-- How a text is written inside quotes. -/
def encode (s : List Char) : List Char := s.flatMap encodeChar

/-- A text between quotes. -/
def quote (s : String) : String := "\"" ++ String.ofList (encode s.toList) ++ "\""

end MarkupTypes.Text.Escaped
