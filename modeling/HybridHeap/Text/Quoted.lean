import HybridHeap.Text.Combining
import HybridHeap.Text.Invisible

/-!
Characters and strings between quotation marks, with everything that would not
show plainly written as an escape.
-/

namespace HybridHeap.Text

/-- Whether a character shows as itself and apart from the one before it. -/
def isPlain (c : Char) : Bool :=
  !invisible.contains c.toNat && !combining.contains c.toNat

/-- The code point of a character in lower-case hexadecimal. -/
def codePoint (c : Char) : String :=
  "\\u\x7b" ++ String.ofList (Nat.toDigits 16 c.toNat) ++ "\x7d"

/-- A character as it stands between the given quotation marks. -/
def escape (quote c : Char) : String :=
  if c = '\x00' then "\\0"
  else if c = '\t' then "\\t"
  else if c = '\n' then "\\n"
  else if c = '\r' then "\\r"
  else if c = '\\' then "\\\\"
  else if c = quote then String.ofList ['\\', c]
  else if isPlain c then c.toString
  else codePoint c

def quotedChar (c : Char) : String :=
  "'" ++ escape '\'' c ++ "'"

def quoted (s : String) : String :=
  "\"" ++ String.join (s.toList.map (escape '"')) ++ "\""

end HybridHeap.Text
