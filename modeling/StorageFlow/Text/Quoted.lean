import StorageFlow.Text.Graphic

/-!
# StorageFlow.Text.Quoted

Text in double quotes, readable on one line whatever it holds.

* `quoted` — one text; `quotedList`, `quotedEntries` — lists and maps of texts.
* `escapeChar` — how each character appears between the quotes.
-/

namespace StorageFlow.Quoted

/-- A character by its code point in hexadecimal. -/
def escapeCodePoint (c : Char) : String :=
  "\\u\x7b" ++ String.ofList (Nat.toDigits 16 c.toNat) ++ "\x7d"

/-- How a character appears between double quotes: as itself if it is legible there. -/
def escapeChar (c : Char) : String :=
  if c = '"' then "\\\""
  else if c = '\\' then "\\\\"
  else if c = '\n' then "\\n"
  else if c = '\r' then "\\r"
  else if c = '\t' then "\\t"
  else if c = '\x00' then "\\0"
  else if isGraphic c then String.singleton c
  else escapeCodePoint c

/-- The text in double quotes. -/
def quoted (text : String) : String :=
  "\"" ++ String.join (text.toList.map escapeChar) ++ "\""

/-- The texts in double quotes, as a list in brackets. -/
def quotedList (texts : List String) : String :=
  "[" ++ ", ".intercalate (texts.map quoted) ++ "]"

/-- The pairs of texts in double quotes, as a map in braces. -/
def quotedEntries (entries : List (String × String)) : String :=
  "\x7b" ++ ", ".intercalate (entries.map fun entry => quoted entry.1 ++ ": " ++ quoted entry.2) ++
    "\x7d"

end StorageFlow.Quoted
