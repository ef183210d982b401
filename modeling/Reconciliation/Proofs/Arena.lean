import Reconciliation.Proofs.Ancestors
/-!
# Tracks that are filled in

A track can be kept as a list of numbered nodes that grows on the way up.  A parent is put at the end, its number is given
to its child at once, and its own parents follow before its siblings (`Attaches`).  Numbers are so given out before it is
known how many nodes there will be above them.

Filling in the nodes comes to the layout of the tree that is grown, or to the same failure (`fills_iff`).  In particular
it ends, whatever the parents are: the entities on the way up differ, so the way is not longer than the map.
-/
namespace Reconciliation
namespace Track

/-! ## Filling in -/

/-- **A new node at the end**, with its number among the parents of its child. -/
def push (nodes : List Entry) (child : Nat) (l : Link) : List Entry :=
  nodes.modify child (fun e => { e with parents := e.parents ++ [nodes.length] }) ++ [⟨l.2, some l.1, some child, []⟩]

mutual

/-- **The parents of a node are attached.**  The node has the number `n` and stands for `id`, which was reached along
`path`. -/
inductive Attaches (parentsOf : EntityId → Except StoreError (List Link)) (start : EntityId) :
    List EntityId → EntityId → Nat → List Entry → Except ReconcileError (List Entry) → Prop
  | unknown {path : List EntityId} {id : EntityId} {n : Nat} {nodes : List Entry} {cause : StoreError}
    (links : parentsOf id = .error cause) : Attaches parentsOf start path id n nodes (.error (.store cause))
  | known {path : List EntityId} {id : EntityId} {n : Nat} {nodes : List Entry} {links : List Link}
    {r : Except ReconcileError (List Entry)} (known : parentsOf id = .ok links)
    (attaches : AttachesAll parentsOf start path n links nodes r) : Attaches parentsOf start path id n nodes r

/-- The parents at the end of some links are attached, one after the other. -/
inductive AttachesAll (parentsOf : EntityId → Except StoreError (List Link)) (start : EntityId) :
    List EntityId → Nat → List Link → List Entry → Except ReconcileError (List Entry) → Prop
  | done {path : List EntityId} {n : Nat} {nodes : List Entry} : AttachesAll parentsOf start path n [] nodes (.ok nodes)
  | cycle {path : List EntityId} {n : Nat} {l : Link} {links : List Link} {nodes : List Entry} (back : l.2 ∈ path) :
    AttachesAll parentsOf start path n (l :: links) nodes (.error (.trackCycle l.2 start))
  | stopped {path : List EntityId} {n : Nat} {l : Link} {links : List Link} {nodes : List Entry} {e : ReconcileError}
    (new : l.2 ∉ path) (up : Attaches parentsOf start (l.2 :: path) l.2 nodes.length (push nodes n l) (.error e)) :
    AttachesAll parentsOf start path n (l :: links) nodes (.error e)
  | next {path : List EntityId} {n : Nat} {l : Link} {links : List Link} {nodes nodes' : List Entry}
    {r : Except ReconcileError (List Entry)} (new : l.2 ∉ path)
    (up : Attaches parentsOf start (l.2 :: path) l.2 nodes.length (push nodes n l) (.ok nodes'))
    (rest : AttachesAll parentsOf start path n links nodes' r) : AttachesAll parentsOf start path n (l :: links) nodes r

end

variable {parentsOf : EntityId → Except StoreError (List Link)} {start id : EntityId} {path below : List EntityId}
  {n : Nat} {nodes : List Entry} {links : List Link} {r r' : Except ReconcileError (List Entry)}

mutual

theorem Attaches.unique : ∀ {path id n nodes r r'}, Attaches parentsOf start path id n nodes r →
    Attaches parentsOf start path id n nodes r' → r = r'
  | _, _, _, _, _, _, .unknown h, .unknown h' => by rw [Except.error.inj (h.symm.trans h')]
  | _, _, _, _, _, _, .unknown h, .known h' _ => by cases h.symm.trans h'
  | _, _, _, _, _, _, .known h _, .unknown h' => by cases h.symm.trans h'
  | _, _, _, _, _, _, .known h all, .known h' all' => by
    obtain rfl := Except.ok.inj (h.symm.trans h')
    exact all.unique all'

theorem AttachesAll.unique : ∀ {path n links nodes r r'}, AttachesAll parentsOf start path n links nodes r →
    AttachesAll parentsOf start path n links nodes r' → r = r'
  | _, _, _, _, _, _, .done, .done => rfl
  | _, _, _, _, _, _, .cycle _, .cycle _ => rfl
  | _, _, _, _, _, _, .cycle back, .stopped new _ => absurd back new
  | _, _, _, _, _, _, .cycle back, .next new _ _ => absurd back new
  | _, _, _, _, _, _, .stopped new _, .cycle back => absurd back new
  | _, _, _, _, _, _, .stopped _ up, .stopped _ up' => up.unique up'
  | _, _, _, _, _, _, .stopped _ up, .next _ up' _ => by cases up.unique up'
  | _, _, _, _, _, _, .next new _ _, .cycle back => absurd back new
  | _, _, _, _, _, _, .next _ up _, .stopped _ up' => by cases up.unique up'
  | _, _, _, _, _, _, .next _ up rest, .next _ up' rest' => by
    obtain rfl := Except.ok.inj (up.unique up')
    exact rest.unique rest'

end

/-! ## Nodes of a tree -/

section
variable {α : Type} {f : α → α}

theorem modify_append_of_lt {l' : List α} : ∀ {l : List α} {i : Nat}, i < l.length →
    (l ++ l').modify i f = l.modify i f ++ l'
  | a :: l, 0, _ => by simp
  | a :: l, i + 1, h => by
    have ih : (l ++ l').modify i f = l.modify i f ++ l' := modify_append_of_lt (Nat.lt_of_succ_lt_succ h)
    simpa using ih

theorem modify_length_append {a : α} : ∀ l : List α, (l ++ [a]).modify l.length f = l ++ [f a]
  | [] => by simp
  | b :: l => by
    have ih : (l ++ [a]).modify l.length f = l ++ [f a] := modify_length_append l
    simpa using ih

end

mutual

theorem length_entriesFrom {child : Option Nat} {connection : Option Connection} :
    ∀ (first : Nat) (t : Track), (entriesFrom first connection child t).length = t.size
  | first, .node id ps => by
    rw [entriesFrom, List.length_cons, length_entriesFromAll, size]

theorem length_entriesFromAll {child : Nat} :
    ∀ (first : Nat) (ps : List (Connection × Track)), (entriesFromAll first child ps).length = sizeAll ps
  | first, [] => by rw [entriesFromAll, sizeAll, List.length_nil]
  | first, (c, t) :: rest => by
    rw [entriesFromAll, List.length_append, length_entriesFrom, length_entriesFromAll, sizeAll]

end

/-- **The nodes with tracks above node `n`.** -/
def attach (n : Nat) (nodes : List Entry) (ps : List (Connection × Track)) : List Entry :=
  nodes.modify n (fun e => { e with parents := e.parents ++ numbersOf nodes.length ps }) ++
    entriesFromAll nodes.length n ps

theorem attach_nil : attach n nodes [] = nodes := by
  have hsame : (fun e : Entry => { e with parents := e.parents ++ [] }) = id := funext fun e => by simp
  rw [attach, numbersOf, entriesFromAll, hsame, List.modify_id, List.append_nil]

theorem attach_push {l : Link} {t : Track} (ht : t.entity = l.2) :
    attach nodes.length (push nodes n l) t.parents =
      nodes.modify n (fun e => { e with parents := e.parents ++ [nodes.length] }) ++
        entriesFrom nodes.length (some l.1) (some n) t := by
  have hlength : (nodes.modify n fun e => { e with parents := e.parents ++ [nodes.length] }).length = nodes.length :=
    List.length_modify ..
  cases t with
  | node id ps =>
    obtain rfl : id = l.2 := ht
    rw [attach, push, List.length_append, hlength, List.length_singleton, entriesFrom, parents]
    nth_rewrite 2 [← hlength]
    rw [modify_length_append, List.append_assoc]
    rfl

theorem attach_cons {l : Link} {t : Track} {ps : List (Connection × Track)} (hn : n < nodes.length) (ht : t.entity = l.2) :
    attach n (attach nodes.length (push nodes n l) t.parents) ps = attach n nodes ((l.1, t) :: ps) := by
  have hlength : (nodes.modify n fun e => { e with parents := e.parents ++ [nodes.length] }).length = nodes.length :=
    List.length_modify ..
  rw [attach_push ht, attach, List.length_append, hlength, length_entriesFrom,
    modify_append_of_lt (hlength.symm ▸ hn), List.modify_modify_eq, attach, numbersOf, entriesFromAll, List.append_assoc]
  congr 2
  funext e
  simp

/-! ## Growing and filling in -/

/-- The parents of an entity in a finite map. -/
def parentsIn (parents : SortedMap EntityId (List Link)) (id : EntityId) : Except StoreError (List Link) :=
  match parents.get? id with
  | some links => .ok links
  | none => .error (.notFound id)

variable {parents : SortedMap EntityId (List Link)}

theorem parentsIn_ok_iff : parentsIn parents id = .ok links ↔ parents.get? id = some links := by
  rw [parentsIn]
  cases parents.get? id <;> simp

theorem length_le_of_contains {l : List EntityId} (hl : l.Nodup) (h : ∀ x ∈ l, parents.contains x = true) :
    l.length ≤ parents.size := by
  have hle := (hl.subperm fun x hx => SortedMap.mem_keys_iff.2 (h x hx)).length_le
  rwa [SortedMap.keys, List.length_map] at hle

theorem climb_of_mem {up : List EntityId → EntityId → Except ReconcileError Track} {l : Link} (h : l.2 ∈ path) :
    climb start path up l = .error (.trackCycle l.2 start) := by
  rw [climb, if_pos (by simpa using h)]
  rfl

theorem climb_of_not_mem {up : List EntityId → EntityId → Except ReconcileError Track} {l : Link} (h : l.2 ∉ path) :
    climb start path up l = (up (l.2 :: path) l.2).map fun t => (l.1, t) := by
  rw [climb, if_neg (by simpa using h)]
  cases up (l.2 :: path) l.2 <;> rfl

/-- The parents of one node are attached, if those of each of them are. -/
theorem climbs_attach {up : List EntityId → EntityId → Except ReconcileError Track}
    (hentity : ∀ {x t}, up (x :: path) x = .ok t → t.entity = x)
    (hup : ∀ {l nodes}, l.2 ∉ path → Attaches parentsOf start (l.2 :: path) l.2 nodes.length (push nodes n l)
      ((up (l.2 :: path) l.2).map fun t => attach nodes.length (push nodes n l) t.parents)) :
    ∀ {links : List Link} {nodes : List Entry}, n < nodes.length → AttachesAll parentsOf start path n links nodes
      ((links.mapM (climb start path up)).map (attach n nodes))
  | [], nodes, _ => by
    rw [List.mapM_nil]
    show AttachesAll parentsOf start path n [] nodes (.ok (attach n nodes []))
    rw [attach_nil]
    exact .done
  | l :: rest, nodes, hn => by
    rw [List.mapM_cons]
    by_cases hback : l.2 ∈ path
    · rw [climb_of_mem hback]
      exact .cycle hback
    rw [climb_of_not_mem hback]
    have habove : Attaches parentsOf start (l.2 :: path) l.2 nodes.length (push nodes n l) _ := hup hback
    cases hgrown : up (l.2 :: path) l.2 with
    | error e =>
      rw [hgrown] at habove
      exact .stopped hback habove
    | ok t =>
      rw [hgrown] at habove
      have ht := hentity hgrown
      -- the nodes above the first parent are numbered before those above the others
      have hlength : n < (attach nodes.length (push nodes n l) t.parents).length := by
        rw [attach_push ht, List.length_append, List.length_modify]
        omega
      have ih : AttachesAll parentsOf start path n rest _ _ := climbs_attach hentity hup hlength
      refine .next hback habove ?_
      cases hthen : rest.mapM (climb start path up) with
      | error e =>
        rw [hthen] at ih
        exact ih
      | ok ps =>
        rw [hthen] at ih
        show AttachesAll parentsOf start path n rest _ (.ok (attach n nodes ((l.1, t) :: ps)))
        rw [← attach_cons hn ht]
        exact ih

/-- **Filling in what is above a node comes to what is grown there.**  The entities on the way to it differ and have
parents, but perhaps for the last one, and there is room for all others that have. -/
theorem grow_attaches : ∀ {room : Nat} {below : List EntityId} {id : EntityId} {n : Nat} {nodes : List Entry},
    (id :: below).Nodup → (∀ x ∈ below, parents.contains x = true) → parents.size ≤ below.length + room → n < nodes.length →
    Attaches (parentsIn parents) start (id :: below) id n nodes
      ((grow (parentsIn parents) start room (id :: below) id).map fun t => attach n nodes t.parents)
  | 0, below, id, n, nodes, hnodup, hbelow, hroom, _ => by
    have hnone : parents.get? id = none := by
      by_contra hsome
      have hid : parents.contains id = true := Option.isSome_iff_ne_none.2 hsome
      have hle := length_le_of_contains hnodup (List.forall_mem_cons.2 ⟨hid, hbelow⟩)
      rw [List.length_cons] at hle
      omega
    exact .unknown (by rw [parentsIn, hnone])
  | room + 1, below, id, n, nodes, hnodup, hbelow, hroom, hn => by
    rw [grow]
    cases hlinks : parentsIn parents id with
    | error cause => exact .unknown hlinks
    | ok links =>
      have hid : parents.contains id = true := SortedMap.contains_iff.2 ⟨links, parentsIn_ok_iff.1 hlinks⟩
      refine .known hlinks ?_
      have hall : AttachesAll (parentsIn parents) start (id :: below) n links nodes
          ((links.mapM (climb start (id :: below) (grow (parentsIn parents) start room))).map (attach n nodes)) := by
        refine climbs_attach (fun h => (grow_unfolds h).2) (fun {l nodes} hnew => ?_) hn
        refine grow_attaches (List.nodup_cons.2 ⟨hnew, hnodup⟩) (List.forall_mem_cons.2 ⟨hid, hbelow⟩) ?_ ?_
        · rw [List.length_cons]
          omega
        · rw [push, List.length_append, List.length_modify, List.length_singleton]
          omega
      simp only [Except.mapError, bind, Except.bind]
      cases hclimbed : links.mapM (climb start (id :: below) (grow (parentsIn parents) start room)) with
      | error e =>
        rw [hclimbed] at hall
        exact hall
      | ok ps =>
        rw [hclimbed] at hall
        exact hall

/-- **A track over a finite map, filled in from its start.** -/
def Fills (parents : SortedMap EntityId (List Link)) (start : EntityId) : Except ReconcileError (List Entry) → Prop :=
  Attaches (parentsIn parents) start [start] start 0 [⟨start, none, none, []⟩]

/-- **Filling in a track ends with the layout of what is grown**, or fails as growing does. -/
theorem fills_iff : Fills parents start r ↔ (ofMap parents start).map layout = r := by
  have hgrown : Fills parents start ((ofMap parents start).map layout) := by
    have hattaches : Fills parents start ((ofMap parents start).map fun t =>
        attach 0 [⟨start, none, none, []⟩] t.parents) :=
      grow_attaches (List.nodup_cons.2 ⟨List.not_mem_nil, .nil⟩) (fun _ h => by cases h) (by simp) (by simp)
    cases ht : ofMap parents start with
    | error e =>
      rw [ht] at hattaches
      exact hattaches
    | ok t =>
      rw [ht] at hattaches
      obtain ⟨-, hentity⟩ := grow_unfolds ht
      cases t with
      | node id ps =>
        obtain rfl : id = start := hentity
        exact hattaches
  exact ⟨hgrown.unique, fun h => h ▸ hgrown⟩

end Track
end Reconciliation
