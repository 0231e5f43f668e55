/-
Quoted text in its two written forms.

`documentQuote` is the string of JSON text: a quote, a backslash and the control characters are escaped, all else
stands raw. `displayQuote` is the form in which a text value is shown: characters that cannot be shown are written as
code points as well.
-/
import RelQuery.Text.Shown

namespace RelQuery.Text

/-- lowercase hexadecimal digits, without leading zeros -/
def hexDigits (n : Nat) : List Char := Nat.toDigits 16 n

/-- `hexDigits` filled up with zeros to four places -/
def hexQuad (n : Nat) : List Char :=
  let digits := hexDigits n
  List.replicate (4 - digits.length) '0' ++ digits

/-- one character inside a JSON string -/
def documentEscape (c : Char) : List Char :=
  if c = '"' then ['\\', '"']
  else if c = '\\' then ['\\', '\\']
  else if c = '\n' then ['\\', 'n']
  else if c = '\r' then ['\\', 'r']
  else if c = '\t' then ['\\', 't']
  else if c.toNat = 8 then ['\\', 'b']
  else if c.toNat = 12 then ['\\', 'f']
  else if c.toNat < 32 then '\\' :: 'u' :: hexQuad c.toNat
  else [c]

/-- a JSON string -/
def documentQuote (s : String) : String :=
  String.ofList ('"' :: (s.toList.flatMap documentEscape ++ ['"']))

/-- one character inside a displayed text -/
def displayEscape (c : Char) : List Char :=
  if c = '"' then ['\\', '"']
  else if c = '\\' then ['\\', '\\']
  else if c = '\n' then ['\\', 'n']
  else if c = '\r' then ['\\', 'r']
  else if c = '\t' then ['\\', 't']
  else if c.toNat = 0 then ['\\', '0']
  else if isShown c then [c]
  else '\\' :: 'u' :: '\x7b' :: (hexDigits c.toNat ++ ['\x7d'])

/-- a text as it is displayed -/
def displayQuote (s : String) : String :=
  String.ofList ('"' :: (s.toList.flatMap displayEscape ++ ['"']))

end RelQuery.Text
