import FlowVerifier.Text.Invisible

/-!
# Quoted text

A string constant is shown between double quotes.  Quote, backslash, tab,
newline, carriage return and NUL have escapes of two characters; any other
invisible character is shown by its code point in hexadecimal.
-/

namespace FlowVerifier
namespace Text

/-- How one character of a string constant is shown. -/
def quoteChar (c : Char) : List Char :=
  if c = '"' then ['\\', '"']
  else if c = '\\' then ['\\', '\\']
  else if c = '\n' then ['\\', 'n']
  else if c = '\r' then ['\\', 'r']
  else if c = '\t' then ['\\', 't']
  else if c.toNat = 0 then ['\\', '0']
  else if isInvisible c then
    ['\\', 'u', Char.ofNat 0x7B] ++ Nat.toDigits 16 c.toNat ++ [Char.ofNat 0x7D]
  else [c]

/-- A string constant as it is shown to a reader. -/
def quoted (s : String) : String :=
  String.ofList ('"' :: (s.toList.flatMap quoteChar ++ ['"']))

end Text
end FlowVerifier
