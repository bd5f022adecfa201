/-!
# Labels of drawn graphs

A graph is drawn from a text format in which a label stands between double
quotes, `\l` ends a line that is set to the left, and a backslash takes away
the meaning of angle brackets and braces.  `label` writes any text as such a
label: the format's own characters get a backslash, a newline becomes the end
of a line, and carriage returns are dropped.
-/

namespace FlowVerifier
namespace Text

/-- How one character of a label is written. -/
def labelChar (c : Char) : List Char :=
  if c = '\n' then ['\\', 'l']
  else if c = '\r' then []
  else if c = '\\' || c = '"' || c = '<' || c = '>' || c.toNat = 0x7B || c.toNat = 0x7D then
    ['\\', c]
  else [c]

/-- A text as the inside of a label. -/
def label (s : String) : String := String.ofList (s.toList.flatMap labelChar)

end Text
end FlowVerifier
