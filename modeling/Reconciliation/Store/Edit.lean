import Reconciliation.Store.Graph
/-!
# Edits of a graph

Five edits: add an entity under parents, remove one with all that requires it, change the data of one, give one other
parents, attach something to one.  An edit that is refused says why (`StoreError`).  Its result is a graph in either
case, so it can be asked what a refused edit leaves behind.

Each edit checks first and changes the graph afterwards; the checks only read.  The last check of an addition is that of
its arithmetic: the index of the next entity of its kind is counted in 32 bits, and a build that checks its arithmetic
ends where that overflows (`checkIndex`).  Changing the data of an entity can change its natural key, and then every soft
reference at the old key follows to the new one (`followRename`).
-/
namespace Reconciliation

/-- **An edit**: it changes a graph and has a result, or is refused.  What it did before a refusal stays done. -/
abbrev Edit (α : Type) := EStateM StoreError Graph α

namespace Graph

/-! ## Checks -/

/-- Checks one link of an entity of a kind; `seen` are the connections of the links before it, and a slot that
`moving` holds itself is free. -/
def checkLink (g : Graph) (kind : Kind) (moving : Option EntityId) (seen : List Connection) (link : Link) :
    Except StoreError Unit := do
  let (c, parent) := link
  if c.child ≠ kind || !g.schema.declares c then throw (.unknownConnection c)
  if seen.contains c then throw (.duplicateConnection c)
  let data ← g.entity parent
  if data.kind ≠ c.parent then throw (.kindMismatch parent c.parent data.kind)
  if c.cardinality = .one && (g.childIds parent c).any (fun child => some child ≠ moving) then
    throw (.oneToOneOccupied parent c)

def checkEachLink (g : Graph) (kind : Kind) (moving : Option EntityId) (seen : List Connection) :
    List Link → Except StoreError Unit
  | [] => .ok ()
  | link :: rest => do
    g.checkLink kind moving seen link
    checkEachLink g kind moving (link.1 :: seen) rest

/-- **Whether an entity of a kind may have these parents**: the kind and every connection are declared, no connection
is given twice, each parent exists and is of the right kind, one-to-one slots are free, and no required connection is
missing. -/
def checkLinks (g : Graph) (kind : Kind) (links : List Link) (moving : Option EntityId) : Except StoreError Unit := do
  if (g.schema.kind? kind).isNone then throw (.unknownKind kind)
  g.checkEachLink kind moving [] links
  match (g.schema.requiredConnections kind).find? fun c => !(links.map (·.1)).contains c with
  | some c => throw (.missingRequiredParent kind c)
  | none => return ()

/-- Whether a natural key is free, or owned by `holder`. -/
def checkKey (g : Graph) (key : Option NaturalKey) (holder : Option EntityId) : Except StoreError Unit :=
  match key with
  | none => .ok ()
  | some key =>
    match g.resolve key with
    | none => .ok ()
    | some existing => if some existing = holder then .ok () else .error (.duplicateKey key existing)

/-- Whether none of the parents is the entity itself or lies below it. -/
def checkAcyclic (g : Graph) (id : EntityId) : List Link → Except StoreError Unit
  | [] => .ok ()
  | (_, parent) :: rest =>
    if parent = id || g.isDescendant id parent then .error (.parentCycle parent id) else checkAcyclic g id rest

/-! ## Adding -/

def nextIndex (g : Graph) (kind : Kind) : UInt32 := (g.counters.get? kind).getD 0

/-- Whether the counter of a kind can be counted on.  At the last index it cannot, and overflows. -/
def checkIndex (g : Graph) (kind : Kind) : Except StoreError Unit :=
  if (g.nextIndex kind).toNat + 1 < UInt32.size then .ok () else .error (.indexOverflow kind)

def insertEntity (g : Graph) (data : Entity) (links : List Link) : Graph × EntityId :=
  let index := g.nextIndex data.kind
  let id : EntityId := ⟨data.kind, index⟩
  let keys := g.keys.addReferences data.refs id
  let keys := match g.schema.naturalKey? data with
    | some key => keys.claim key id
    | none => keys
  let node : Node := ⟨data, inDeclarationOrder g.schema data.kind links, .empty⟩
  ({ g with nodes := g.nodes.insert id node, counters := g.counters.insert data.kind (index + 1), keys := keys }, id)

/-- **Adds an entity under parents** and gives its id. -/
def add (data : Entity) (links : List Link) : Edit EntityId := do
  let g ← get
  MonadExcept.ofExcept (g.checkLinks data.kind links none)
  MonadExcept.ofExcept (g.checkKey (g.schema.naturalKey? data) none)
  MonadExcept.ofExcept (g.checkIndex data.kind)
  let (after, id) := g.insertEntity data links
  set after
  return id

/-! ## Removing -/

/-- The graph without one entity: its key, its references and the links of its children go with it. -/
def dropEntity (g : Graph) (id : EntityId) : Graph :=
  match g.nodes.get? id with
  | none => g
  | some node =>
    let keys := match g.schema.naturalKey? node.data with
      | some key => g.keys.release key id
      | none => g.keys
    let left := (g.nodes.erase id).map fun _ n => { n with parents := n.parents.filter (·.2 ≠ id) }
    { g with nodes := left, keys := keys.dropReferences node.data.refs id }

/-- **Removes an entity and all that requires it**, and gives their ids. -/
def remove (id : EntityId) : Edit (List EntityId) := do
  let g ← get
  let _ ← MonadExcept.ofExcept (g.node id)
  let doomed := g.requiredClosure id
  set (doomed.foldl dropEntity g)
  return doomed

/-! ## Changing data -/

/-- The graph with other data for an entity; `old` is what it had.  The natural key is not touched. -/
def replaceData (g : Graph) (id : EntityId) (old new : Entity) : Graph :=
  { g with
    nodes := g.nodes.modify id fun n => { n with data := new }
    keys := (g.keys.dropReferences old.refs id).addReferences new.refs id }

def rekey (g : Graph) (id : EntityId) (old new : Option NaturalKey) : Graph :=
  let keys := match old with
    | some key => g.keys.release key id
    | none => g.keys
  let keys := match new with
    | some key => keys.claim key id
    | none => keys
  { g with keys := keys }

/-- Points the soft references of some entities at `old` to `new`. -/
def followRename (old new : NaturalKey) : List EntityId → Edit Unit
  | [] => return ()
  | id :: rest => do
    let g ← get
    let _ ← MonadExcept.ofExcept (g.node id)
    set { g with
      nodes := g.nodes.modify id fun n => { n with data := n.data.rename old new }
      keys := (g.keys.dropReferrer old id).addReferrer new id }
    followRename old new rest

/-- **Changes the data of an entity.**  Its kind must stay.  Soft references follow when its natural key changes. -/
def modify (id : EntityId) (change : Entity → Entity) : Edit Unit := do
  let g ← get
  let old ← MonadExcept.ofExcept (g.entity id)
  let new := change old
  if new.kind ≠ old.kind then throw (.kindMismatch id old.kind new.kind)
  let oldKey := g.schema.naturalKey? old
  let newKey := g.schema.naturalKey? new
  if oldKey = newKey then set (g.replaceData id old new)
  else
    MonadExcept.ofExcept (g.checkKey newKey (some id))
    set ((g.replaceData id old new).rekey id oldKey newKey)
    match oldKey, newKey with
    | some old, some new => followRename old new ((← get).referrers old)
    | _, _ => return ()

/-! ## Moving and attaching -/

/-- **Replaces the parents of an entity.**  None of them may be the entity itself or lie below it. -/
def setParents (id : EntityId) (links : List Link) : Edit Unit := do
  let g ← get
  let _ ← MonadExcept.ofExcept (g.node id)
  MonadExcept.ofExcept (g.checkLinks id.kind links (some id))
  MonadExcept.ofExcept (g.checkAcyclic id links)
  set { g with nodes := g.nodes.modify id fun n => { n with parents := inDeclarationOrder g.schema id.kind links } }

/-- **Attaches a value to an entity** under a mapping name. -/
def setExternal (mapping : String) (id : EntityId) (value : Json) : Edit Unit := do
  let g ← get
  let _ ← MonadExcept.ofExcept (g.node id)
  set { g with nodes := g.nodes.modify id fun n => { n with externals := n.externals.insert mapping value } }

end Graph

/-! ## Builders -/

/-- **A graph under construction**, with the graph that changes are counted from. -/
structure Builder where
  graph : Graph
  origin : Graph
deriving DecidableEq

namespace Builder

def ofGraph (g : Graph) : Builder := ⟨g, g⟩

def new (schema : Schema) : Builder := ofGraph (.empty schema)

instance : Inhabited Builder := ⟨new .empty⟩

def resetChanges (b : Builder) : Builder := ⟨b.graph, b.graph⟩

end Builder
end Reconciliation
