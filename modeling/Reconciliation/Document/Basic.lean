import Reconciliation.Entity.Connection
import Reconciliation.Json.Basic
/-!
# Documents

A document describes a schema and the two graphs of a pass, each as a list of entities.  Kinds are referred to by name.
An entity has a key that names it in the parent lists of entities behind it, on its own side of the document only.
-/
namespace Reconciliation

structure ParentSpec where
  kind : String
  cardinality : Cardinality
  optionality : Optionality
deriving DecidableEq, Inhabited

/-- **The description of a kind.** -/
structure KindSpec where
  name : String
  /-- The attributes that form the natural key. -/
  keyAttributes : List String
  parents : List ParentSpec
deriving DecidableEq, Inhabited

/-- **The description of an entity.** -/
structure EntitySpec where
  key : String
  kind : String
  source : Source
  attributes : SortedMap String Json
  /-- The keys of its parents. -/
  parents : List String
  /-- What is attached from outside, by mapping name. -/
  externals : SortedMap String Json
deriving DecidableEq, Inhabited

/-- **A document**: a schema, the entities that are there, and the entities that come in. -/
structure Document where
  kinds : List KindSpec
  target : List EntitySpec
  incoming : List EntitySpec
deriving DecidableEq, Inhabited

inductive Side
  | target
  | incoming
deriving DecidableEq, Inhabited

def Side.text : Side → String
  | .target => "target"
  | .incoming => "incoming"

end Reconciliation
