import Reconciliation.Document.Basic
import Reconciliation.Store.Error
/-!
# What is wrong with a document

A document can be well-formed and still describe nothing.  Every fault is a cause with the things it is about;
`DocumentError.message` words it.
-/
namespace Reconciliation

/-- **Why a JSON value is no attribute value.** -/
inductive AttributeFault
  /-- The number is no integer of 64 bits. -/
  | notAnInteger (n : JsonNumber)
  /-- The object is not of the form that references have. -/
  | notAReference
  | referenceWithoutKind
  | referenceWithoutKey
  | unknownKind (name : String)
deriving DecidableEq, Inhabited

def AttributeFault.message : AttributeFault → String
  | .notAnInteger n => n.render ++ " is not a 64-bit integer"
  | .notAReference => "objects must have the form \x7b\"ref\": \x7b\"kind\", \"key\"\x7d\x7d"
  | .referenceWithoutKind => "reference without a kind"
  | .referenceWithoutKey => "reference without a key"
  | .unknownKind name => s!"unknown kind {name}"

/-- **Why a document describes no graphs.** -/
inductive DocumentError
  | duplicateKind (name : String)
  | unknownKind (name : String)
  | duplicateKey (side : Side) (key : String)
  /-- The parent is not among the entities in front of the child. -/
  | unknownParent (side : Side) (key parent : String)
  | noConnection (side : Side) (key parentKind childKind : String)
  | badAttribute (side : Side) (key name : String) (fault : AttributeFault)
  /-- The graph refuses the entity. -/
  | store (side : Side) (key : String) (cause : StoreError)
deriving DecidableEq, Inhabited

def DocumentError.message : DocumentError → String
  | .duplicateKind name => s!"kind declared twice: {name}"
  | .unknownKind name => s!"unknown kind: {name}"
  | .duplicateKey side key => s!"{side.text} entities: key used twice: {key}"
  | .unknownParent side key parent =>
    s!"{side.text} entity {key}: parent {parent} is not declared before it"
  | .noConnection side key parentKind childKind =>
    s!"{side.text} entity {key}: no connection from {parentKind} to {childKind}"
  | .badAttribute side key name fault => s!"{side.text} entity {key}: attribute {name}: " ++ fault.message
  | .store side key cause => s!"{side.text} entity {key}: " ++ cause.message

end Reconciliation
