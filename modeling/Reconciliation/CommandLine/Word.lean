/-!
# Words of a command line

A word is an option by its name, some options by their letters, or plain.  Two hyphens alone say that only plain words
follow.  One hyphen alone is plain.
-/
namespace Reconciliation.CommandLine

/-- **A word of a command line.** -/
inductive Word
  /-- Two hyphens: all that follows is plain. -/
  | separator
  /-- The name of an option, with the value behind an equals sign. -/
  | named (name : List Char) (value : Option String)
  /-- The letters of options; the last one may be followed by its value. -/
  | lettered (letters : List Char)
  | plain (s : String)
deriving DecidableEq, Inhabited

def Word.of (s : String) : Word :=
  match s.toList with
  | '-' :: '-' :: [] => .separator
  | '-' :: '-' :: cs =>
    let value := match cs.dropWhile (· ≠ '=') with
      | [] => none
      | _ :: cs => some (String.ofList cs)
    .named (cs.takeWhile (· ≠ '=')) value
  | '-' :: c :: cs => .lettered (c :: cs)
  | _ => .plain s

end Reconciliation.CommandLine
