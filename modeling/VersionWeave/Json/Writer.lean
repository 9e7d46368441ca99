import VersionWeave.Json.Value

namespace VersionWeave

namespace Json

/-- How a text is laid out: what stands between items at a nesting depth, and after a key. -/
structure Style where
  lineBreak : Nat → String
  colon : String

def Style.compact : Style where
  lineBreak _ := ""
  colon := ":"

/-- One item a line, two spaces a level. -/
def Style.pretty : Style where
  lineBreak depth := String.ofList ('\n' :: List.replicate (2 * depth) ' ')
  colon := ": "

/-- A quote, a backslash and every control character below U+0020 are escaped, and nothing else. -/
def escapeChar (c : Char) : List Char :=
  if c = '"' then ['\\', '"']
  else if c = '\\' then ['\\', '\\']
  else if c = '\x08' then ['\\', 'b']
  else if c = '\x0c' then ['\\', 'f']
  else if c = '\n' then ['\\', 'n']
  else if c = '\r' then ['\\', 'r']
  else if c = '\t' then ['\\', 't']
  else if c.toNat < 0x20 then
    ['\\', 'u', '0', '0', (c.toNat / 16).digitChar, (c.toNat % 16).digitChar]
  else [c]

def quote (s : String) : String :=
  String.ofList ('"' :: s.toList.flatMap escapeChar ++ ['"'])

/-- Brackets around items that are already written at the next depth. -/
def enclose (style : Style) (depth : Nat) (opening closing : String) : List String → String
  | [] => opening ++ closing
  | items =>
    opening ++ style.lineBreak (depth + 1)
      ++ ("," ++ style.lineBreak (depth + 1)).intercalate items
      ++ style.lineBreak depth ++ closing

mutual

/-- The text of a value at a nesting depth; a string without text is the replacement character. -/
def write (style : Style) (depth : Nat) : Json → String
  | .null => "null"
  | .bool true => "true"
  | .bool false => "false"
  | .int i => i.repr
  | .real spelling => spelling
  | .str s => quote s
  | .noText => quote "�"
  | .arr items => enclose style depth "[" "]" (writeItems style (depth + 1) items)
  | .obj members => enclose style depth "\x7b" "\x7d" (writeMembers style (depth + 1) members)

def writeItems (style : Style) (depth : Nat) : List Json → List String
  | [] => []
  | j :: rest => write style depth j :: writeItems style depth rest

def writeMembers (style : Style) (depth : Nat) : List (Option String × Json) → List String
  | [] => []
  | (key, j) :: rest =>
    (quote (key.getD "�") ++ style.colon ++ write style depth j)
      :: writeMembers style depth rest

end

def compact (j : Json) : String :=
  write .compact 0 j

def pretty (j : Json) : String :=
  write .pretty 0 j

end Json

end VersionWeave
