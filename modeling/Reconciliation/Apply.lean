import Reconciliation.Plan.Basic
import Reconciliation.Plan.Error
import Reconciliation.Store.Edit
/-!
# Carrying out a plan

First the additions are made, in rounds: one whose parent is itself still to be added waits for the next round.  Then
come the relabels and then the removals, in ascending order, and at last the soft references that follow renames.

A natural key or a one-to-one slot that an entity is about to take may have a holder.  One that is to be removed anyway
is removed early (`makeRoom`); any other makes the plan fail.  What was done before a failure stays done.
-/
namespace Reconciliation

/-- How many entities were added, relabelled and removed. -/
structure Applied where
  added : Nat
  relabeled : Nat
  removed : Nat
deriving DecidableEq, Inhabited

/-- **The state of carrying out a plan**: the target, the copy of each incoming entity added so far, and the counts. -/
structure Applying where
  graph : Graph
  copies : SortedMap EntityId EntityId
  applied : Applied
deriving DecidableEq

abbrev Apply (α : Type) := EStateM ReconcileError Applying α

namespace Applying

def start (target : Graph) : Applying := ⟨target, .empty, ⟨0, 0, 0⟩⟩

/-- The ids that added parents have by now.  There are none while one of them is not added yet. -/
def linksOf? (s : Applying) : PlannedLinks → Option (List Link)
  | [] => some []
  | (c, .target id) :: rest => (linksOf? s rest).map ((c, id) :: ·)
  | (c, .added incoming) :: rest =>
    match s.copies.get? incoming with
    | none => none
    | some id => (linksOf? s rest).map ((c, id) :: ·)

end Applying

namespace Apply

def edit {α : Type} (e : Edit α) : Apply α := fun s =>
  match e s.graph with
  | .ok a g => .ok a { s with graph := g }
  | .error cause g => .error (.store cause) { s with graph := g }

def lookup {α : Type} (x : Except StoreError α) : Apply α :=
  match x with
  | .ok a => pure a
  | .error cause => throw (.store cause)

/-! ## Single steps -/

/-- Attaches to a target entity what is attached to an incoming one. -/
def copyExternals (id : EntityId) : List (String × Json) → Apply Unit
  | [] => return ()
  | (mapping, value) :: rest => do
    edit (Graph.setExternal mapping id value)
    copyExternals id rest

/-- Removes a target entity, unless it is gone already. -/
def remove (id : EntityId) : Apply Unit := do
  if (← get).graph.contains id then
    let removed ← edit (Graph.remove id)
    modify fun s => { s with applied := { s.applied with removed := s.applied.removed + removed.length } }

/-- The holder of the natural key of `data`, unless it is `moving`. -/
def keyHolder (g : Graph) (data : Entity) (moving : Option EntityId) : List EntityId :=
  match g.schema.naturalKey? data with
  | none => []
  | some key =>
    match g.resolve key with
    | none => []
    | some holder => if some holder = moving then [] else [holder]

/-- The holders of one-to-one slots among links, apart from `moving`. -/
def slotHolders (g : Graph) (moving : Option EntityId) : List Link → Except StoreError (List EntityId)
  | [] => .ok []
  | (c, parent) :: rest => do
    let occupants ← if c.cardinality = .one then g.childrenOf parent c else pure []
    let later ← slotHolders g moving rest
    return occupants.filter (fun id => some id ≠ moving) ++ later

def displace (operations : SortedMap EntityId Operation) (kind : Kind) : List EntityId → Apply Unit
  | [] => return ()
  | holder :: rest => do
    let g := (← get).graph
    if !g.contains holder then displace operations kind rest
    else if operations.get? holder = some .remove then
      remove holder
      displace operations kind rest
    else throw (.slotTaken holder (g.schema.nameOf kind))

/-- **Frees the natural key and the one-to-one slots that an entity is about to take.** -/
def makeRoom (operations : SortedMap EntityId Operation) (data : Entity) (links : List Link)
    (moving : Option EntityId) : Apply Unit := do
  let g := (← get).graph
  let holders := keyHolder g data moving ++ (← lookup (slotHolders g moving links))
  displace operations data.kind holders

def add (incoming : Graph) (operations : SortedMap EntityId Operation) (id : EntityId) (links : List Link) :
    Apply Unit := do
  let data ← lookup (incoming.entity id)
  makeRoom operations data links none
  let copy ← edit (Graph.add data links)
  copyExternals copy (incoming.externalsOf id)
  modify fun s => { s with
    copies := s.copies.insert id copy
    applied := { s.applied with added := s.applied.added + 1 } }

/-- Gives a target entity the data of its counterpart, and other parents if there are any planned. -/
def relabel (incoming : Graph) (operations : SortedMap EntityId Operation) (id counterpart : EntityId)
    (links : Option PlannedLinks) : Apply Unit := do
  let data ← lookup (incoming.entity counterpart)
  makeRoom operations data [] (some id)
  edit (Graph.modify id fun e => e.relabel data)
  match links with
  | none => pure ()
  | some links =>
    match (← get).linksOf? links with
    | none => throw (.relabelParentNeverAdded id)
    | some parents =>
      makeRoom operations data parents (some id)
      edit (Graph.setParents id parents)
  copyExternals id (incoming.externalsOf counterpart)
  modify fun s => { s with applied := { s.applied with relabeled := s.applied.relabeled + 1 } }

/-! ## Rounds of additions -/

/-- One round: makes the additions whose parents are there, and gives the others. -/
def addRound (incoming : Graph) (operations : SortedMap EntityId Operation) :
    List Addition → Apply (List Addition)
  | [] => return []
  | a :: rest => do
    match (← get).linksOf? (a.links.getD []) with
    | some links =>
      add incoming operations a.incoming links
      addRound incoming operations rest
    | none => return a :: (← addRound incoming operations rest)

/-- Rounds until nothing waits.  A round in which nothing could be added ends in failure, so there are no more rounds
than additions. -/
def addRounds (incoming : Graph) (operations : SortedMap EntityId Operation) : Nat → List Addition → Apply Unit
  | _, [] => return ()
  | 0, _ :: _ => return ()
  | rounds + 1, pending@(_ :: _) => do
    let deferred ← addRound incoming operations pending
    if deferred.length = pending.length then throw (.parentsNeverAdded (deferred.map (·.incoming)))
    else addRounds incoming operations rounds deferred

/-- **Makes all additions**, whatever their order. -/
def addAll (incoming : Graph) (operations : SortedMap EntityId Operation) (additions : List Addition) : Apply Unit :=
  addRounds incoming operations additions.length additions

/-! ## The whole plan -/

/-- Points the soft references of an entity at the new key of a rename, unless the pass has given it its data. -/
def followInto (operations : SortedMap EntityId Operation) (rename : Rename) : List EntityId → Apply Unit
  | [] => return ()
  | id :: rest => do
    let s ← get
    if !s.graph.contains id || operations.contains id || s.copies.values.contains id then
      followInto operations rename rest
    else
      edit (Graph.modify id fun e => e.rename rename.old rename.new)
      followInto operations rename rest

/-- Lets the soft references that the pass leaves alone follow a rename. -/
def follow (operations : SortedMap EntityId Operation) (rename : Rename) : Apply Unit := do
  followInto operations rename ((← get).graph.referrers rename.old)

/-- **Carries out a plan.** -/
def plan (incoming : Graph) (p : Plan) : Apply Applied := do
  addAll incoming p.operations p.additions
  p.relabels.forM fun r => relabel incoming p.operations r.1 r.2.1 r.2.2
  p.removals.forM remove
  p.renames.forM (follow p.operations)
  return (← get).applied

end Apply
end Reconciliation
