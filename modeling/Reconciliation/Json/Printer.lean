import Reconciliation.Json.Basic
/-!
# Writing JSON

`compact` writes without blanks.  `pretty` puts each item and each member on a line of its own, two blanks deeper than
the bracket that holds it, and writes empty arrays and objects as `[]` and `{}`.  Of the characters in a text only the
quote, the backslash and those below U+0020 are escaped.
-/
namespace Reconciliation.Json

def hexDigit (n : Nat) : Char := if n < 10 then Char.ofNat (48 + n) else Char.ofNat (87 + n)

def escapeChar (c : Char) : String :=
  if c = '"' then "\\\""
  else if c = '\\' then "\\\\"
  else if c = '\x08' then "\\b"
  else if c = '\t' then "\\t"
  else if c = '\n' then "\\n"
  else if c = '\x0c' then "\\f"
  else if c = '\r' then "\\r"
  else if c.toNat < 32 then "\\u00" ++ String.ofList [hexDigit (c.toNat / 16), hexDigit (c.toNat % 16)]
  else String.singleton c

def quote (s : String) : String := s.foldl (fun t c => t ++ escapeChar c) "\"" ++ "\""

mutual
/-- **A value without blanks.** -/
def compact : Json → String
  | .null => "null"
  | .bool b => if b then "true" else "false"
  | .num n => n.render
  | .str s => quote s
  | .arr items => "[" ++ ",".intercalate (compactItems items) ++ "]"
  | .obj members => "\x7b" ++ ",".intercalate (compactMembers members) ++ "\x7d"
def compactItems : List Json → List String
  | [] => []
  | j :: js => compact j :: compactItems js
def compactMembers : List (String × Json) → List String
  | [] => []
  | (k, j) :: rest => (quote k ++ ":" ++ compact j) :: compactMembers rest
end

def breakTo (depth : Nat) : String := "\n".pushn ' ' (2 * depth)

mutual
def prettyAt (depth : Nat) : Json → String
  | .null => "null"
  | .bool b => if b then "true" else "false"
  | .num n => n.render
  | .str s => quote s
  | .arr items =>
    if items.isEmpty then "[]" else "[" ++ ",".intercalate (prettyItems (depth + 1) items) ++ breakTo depth ++ "]"
  | .obj members =>
    if members.isEmpty then "\x7b\x7d"
    else "\x7b" ++ ",".intercalate (prettyMembers (depth + 1) members) ++ breakTo depth ++ "\x7d"
def prettyItems (depth : Nat) : List Json → List String
  | [] => []
  | j :: js => (breakTo depth ++ prettyAt depth j) :: prettyItems depth js
def prettyMembers (depth : Nat) : List (String × Json) → List String
  | [] => []
  | (k, j) :: rest => (breakTo depth ++ quote k ++ ": " ++ prettyAt depth j) :: prettyMembers depth rest
end

/-- **A value over several lines.** -/
def pretty (j : Json) : String := prettyAt 0 j

end Reconciliation.Json
