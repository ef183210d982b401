import Reconciliation.Toml.Number
/-!
# Reading TOML: values and documents

A document is read line by line.  A line has a key with its value, which may go on over several lines inside brackets or
texts, or a header; everything else on it is blank or comment.
-/
namespace Reconciliation.Toml

namespace Reader

/-! ## Values -/

/-- Items of an array up to its closing bracket, which is taken.  A comma may stand behind the last one. -/
def arrayRest (item : Reader Toml) (kept : List Toml) : Nat → Reader (List Toml)
  | 0 => failure
  | steps + 1 => do
    lines steps
    if (← peek?) = some ']' then
      let _ ← next
      return kept.reverse
    let v ← item
    lines steps
    match ← next with
    | ',' => arrayRest item (v :: kept) steps
    | ']' => return (v :: kept).reverse
    | _ => failure

def inlineEntry (steps : Nat) (item : Reader Toml) : Reader (List String × String × Toml) := do
  let (path, name) ← key steps
  literally ['=']
  blanks
  let v ← item
  blanks
  return (path, name, v)

/-- The further entries of a table in braces, up to the closing one, which is taken. -/
def inlineRest (item : Reader Toml) : Nat → Reader (List (List String × String × Toml))
  | 0 => failure
  | steps + 1 => do
    match ← next with
    | '\x7d' => return []
    | ',' => do
      let e ← inlineEntry steps item
      return e :: (← inlineRest item steps)
    | _ => failure

/-- The entries of a table in braces, behind the opening one.  All stand on one line. -/
def inlineTable (steps : Nat) (item : Reader Toml) : Reader Toml := do
  blanks
  let entries ←
    if (← peek?) = some '\x7d' then (fun _ => []) <$> next
    else do
      let e ← inlineEntry steps item
      pure (e :: (← inlineRest item steps))
  match inlineEntries entries [] with
  | some t => return .table .inline t
  | none => failure

def scalar (steps : Nat) : Reader Toml := do
  match ← peek? with
  | some '"' | some '\'' => return .text (← text steps)
  | some 't' =>
    literally ['t', 'r', 'u', 'e']
    return .bool true
  | some 'f' =>
    literally ['f', 'a', 'l', 's', 'e']
    return .bool false
  | _ => number

/-- **A value.**  `room` is how deep arrays and tables may still nest. -/
def value (steps : Nat) : Nat → Reader Toml
  | 0 => scalar steps
  | room + 1 => do
    match ← peek? with
    | some '[' =>
      let _ ← next
      return .array (← arrayRest (value steps room) [] steps)
    | some '\x7b' =>
      let _ ← next
      inlineTable steps (value steps room)
    | _ => scalar steps

/-! ## Lines -/

def assignment (steps : Nat) (d : Draft) : Reader Draft := do
  let (path, name) ← key steps
  literally ['=']
  blanks
  let v ← value steps maxDepth
  trailing
  match d.insert path name v with
  | some d => return d
  | none => failure

def header (steps : Nat) (d : Draft) : Reader Draft := do
  literally ['[']
  let repeated ← maybe (literally ['['])
  let (path, name) ← key steps
  literally [']']
  if repeated.isSome then literally [']']
  trailing
  match if repeated.isSome then d.openRepeated path name else d.openTable path name with
  | some d => return d
  | none => failure

def statements (d : Draft) : Nat → Reader Draft
  | 0 => failure
  | steps + 1 => do
    blanks
    match ← peek? with
    | none => return d
    | some '#' =>
      comment
      lineEnd
      statements d steps
    | some '\n' | some '\r' =>
      lineBreak
      statements d steps
    | some '[' => statements (← header (steps + 1) d) steps
    | some _ => statements (← assignment (steps + 1) d) steps

end Reader

/-- **Reads a document** and gives the entries of its root.  A byte order mark in front does not count. -/
def parse (text : String) : Option Entries := do
  let cs := match text.toList with
    | '\ufeff' :: cs => cs
    | cs => cs
  let (d, _) ← Reader.statements .empty (cs.length + 2) cs
  d.close

end Reconciliation.Toml
