import Reconciliation.Proofs.Cascades
import Reconciliation.Proofs.Redirections
/-!
# What is attached, in a table of its own

What is attached to an entity can be kept apart from the graph, in a table by mapping name and then by entity
(`Attachments`).  Then nothing takes care of it by itself: attaching has to write into the table, and removing has to
forget whoever goes under every mapping name.

A table that is kept up to date in this way through a session says of every entity what the graph says, also of those that
are gone (`Builder.session_attachments`).
-/
namespace Reconciliation

/-- **What is attached**, by mapping name and then by entity. -/
abbrev Attachments := SortedMap String (SortedMap EntityId Json)

namespace Attachments

variable {t : Attachments} {g g' : Graph} {mapping m : String} {id x : EntityId} {value : Json}

def read (t : Attachments) (mapping : String) (id : EntityId) : Option Json := (t.get? mapping).bind (·.get? id)

/-- All that is attached to an entity, by mapping name. -/
def readAll (t : Attachments) (id : EntityId) : List (String × Json) :=
  t.toList.filterMap fun values => (values.2.get? id).map (values.1, ·)

def attach (t : Attachments) (mapping : String) (id : EntityId) (value : Json) : Attachments :=
  t.insert mapping (((t.get? mapping).getD .empty).insert id value)

def forget (t : Attachments) (id : EntityId) : Attachments := t.map fun _ values => values.erase id

theorem read_attach : (t.attach mapping id value).read m x = if m = mapping ∧ x = id then some value else t.read m x := by
  rw [read, attach, SortedMap.get?_insert]
  by_cases hm : m = mapping
  · subst hm
    rw [if_pos rfl, Option.bind_some, SortedMap.get?_insert, read]
    simp only [true_and]
    split
    · rfl
    · cases t.get? m <;> rfl
  · simp [hm, read]

theorem read_forget : (t.forget id).read m x = if x = id then none else t.read m x := by
  rw [read, forget, SortedMap.get?_map, read]
  cases t.get? m with
  | none => simp
  | some values => simp [SortedMap.get?_erase]

theorem read_foldl_forget : ∀ {gone : List EntityId} {t : Attachments},
    (gone.foldl forget t).read m x = if x ∈ gone then none else t.read m x
  | [], t => by simp
  | id :: gone, t => by
    rw [List.foldl_cons, read_foldl_forget, read_forget]
    by_cases hx : x = id
    · simp [hx]
    · simp [hx]

/-- What is attached to an entity, as a map. -/
def column (t : Attachments) (id : EntityId) : SortedMap String Json where
  toList := t.readAll id
  ascending := by
    refine List.Pairwise.filterMap _ (fun v w hvw a ha b hb => ?_) t.ascending
    obtain ⟨_, -, rfl⟩ := Option.map_eq_some_iff.1 ha
    obtain ⟨_, -, rfl⟩ := Option.map_eq_some_iff.1 hb
    exact hvw

theorem get?_column : (t.column id).get? m = t.read m id := by
  refine Option.ext fun value => ?_
  rw [SortedMap.get?_eq_some_iff, read]
  change (m, value) ∈ t.readAll id ↔ _
  rw [readAll]
  simp only [List.mem_filterMap, Option.map_eq_some_iff, Option.bind_eq_some_iff, SortedMap.get?_eq_some_iff (m := t)]
  constructor
  · rintro ⟨⟨name, values⟩, hmem, value', hvalue, heq⟩
    obtain ⟨rfl, rfl⟩ := Prod.mk.inj heq
    exact ⟨values, hmem, hvalue⟩
  · rintro ⟨values, hmem, hvalue⟩
    exact ⟨(m, values), hmem, value, hvalue, rfl⟩

/-- **The table says what the graph says.** -/
def Holds (t : Attachments) (g : Graph) : Prop := ∀ mapping id, t.read mapping id = g.external? mapping id

theorem Holds.congr (h : t.Holds g) (hsame : ∀ x, g'.externals? x = g.externals? x) : t.Holds g' := fun mapping id => by
  rw [h, Graph.external?_eq, Graph.external?_eq, hsame]

theorem Holds.readAll (h : t.Holds g) (id : EntityId) : t.readAll id = g.externalsOf id := by
  have hcolumn : t.column id = (g.externals? id).getD .empty := SortedMap.ext fun m => by
    rw [get?_column, h, Graph.external?_eq]
    cases g.externals? id <;> rfl
  calc t.readAll id = (t.column id).toList := rfl
    _ = ((g.externals? id).getD .empty).toList := by rw [hcolumn]
    _ = g.externalsOf id := by rw [Graph.externalsOf_eq]; cases g.externals? id <;> rfl

/-! ## One edit -/

variable {links : List Link} {data : Entity} {gone : List EntityId} {u : Unit}

theorem Holds.add (ht : t.Holds g) (hnew : g.contains ⟨data.kind, g.nextIndex data.kind⟩ = false)
    (h : Graph.add data links g = .ok id g') : t.Holds g' := by
  intro m x
  rw [ht, Graph.external?_eq, Graph.external?_eq, Graph.add_externals h]
  split
  · next hx =>
    rw [hx, (Graph.add_ok h).1, Graph.externals?_of_not_contains hnew]
    rfl
  · rfl

theorem Holds.modify (ht : t.Holds g) {change : Entity → Entity} (h : Graph.modify id change g = .ok u g') : t.Holds g' :=
  ht.congr fun x => (Graph.modify_keepsExternals h).externals?_eq ((Graph.modify_ok h).2.contains x)

theorem Holds.setParents (ht : t.Holds g) (h : Graph.setParents id links g = .ok u g') : t.Holds g' := by
  refine ht.congr fun x => (Graph.setParents_keepsExternals h).externals?_eq ?_
  obtain ⟨-, -, -, rfl⟩ := Graph.setParents_ok_iff.1 h
  exact Graph.Stepwise.contains_withLinks links x

theorem Holds.remove (ht : t.Holds g) (hg : g.Closed) (h : Graph.remove id g = .ok gone g') :
    (gone.foldl forget t).Holds g' := by
  intro m x
  rw [read_foldl_forget, ht, Graph.external?_eq, Graph.external?_eq, (hg.remove h).externals?]
  split <;> rfl

theorem Holds.setExternal (ht : t.Holds g) (h : Graph.setExternal mapping id value g = .ok u g') :
    (t.attach mapping id value).Holds g' := by
  intro m x
  obtain ⟨l, hl⟩ := Graph.exists_externals (Graph.contains_of_setExternal h)
  rw [read_attach, ht, Graph.external?_eq, Graph.external?_eq, Graph.setExternal_externals h]
  by_cases hx : x = id
  · subst hx
    rw [if_pos rfl, hl, Option.map_some, Option.bind_some, Option.bind_some, SortedMap.get?_insert]
    simp
  · simp [hx]

end Attachments

/-! ## One request -/

/-- **What a request does to the table.**  One that is refused does nothing to it. -/
def Request.file (g : Graph) (t : Attachments) : Request → Attachments
  | setExternal mapping id value =>
    match Graph.setExternal mapping id value g with
    | .ok _ _ => t.attach mapping id value
    | .error _ _ => t
  | remove id =>
    match Graph.remove id g with
    | .ok gone _ => gone.foldl Attachments.forget t
    | .error _ _ => t
  | _ => t

theorem Request.file_holds {g : Graph} {t : Attachments} (hg : g.Proper) (ht : t.Holds g) {r : Request} :
    (r.file g t).Holds (r.left g) := by
  rcases hperform : r.perform g with ⟨ids, g'⟩ | ⟨cause, g'⟩
  · have hdoes := does hperform
    rw [left_of_ok hperform]
    cases r with
    | add data links =>
      obtain ⟨id, h⟩ := hdoes
      exact ht.add (hg.counted.fresh data.kind) h
    | modify id change => exact ht.modify hdoes
    | setParents id links => exact ht.setParents hdoes
    | remove id =>
      obtain ⟨gone, h⟩ := hdoes
      rw [file, h]
      exact ht.remove hg.closed h
    | setExternal mapping id value =>
      rw [file, show Graph.setExternal mapping id value g = .ok () g' from hdoes]
      exact ht.setExternal hdoes
  · have hfile : r.file g t = t := by
      cases r with
      | add | modify | setParents => rfl
      | remove id => rw [file, show Graph.remove id g = .error cause g' from hperform]
      | setExternal mapping id value =>
        rcases bind_error_iff.1 hperform with h | ⟨_, _, -, h⟩
        · rw [file, h]
        · cases h
    rw [left_of_error hperform, refused (Graph.referred_of_wellReferred hg.referred) hperform, hfile]
    exact ht

/-! ## Whole sessions -/

def Turn.file (g : Graph) (t : Attachments) : Turn → Attachments
  | request r => r.file g t
  | reopen => t

namespace Builder

variable {b : Builder} {t : Attachments}

/-- **The table after a session**, turn by turn. -/
def file : Builder → Attachments → List Turn → Attachments
  | _, t, [] => t
  | b, t, turn :: rest => (b.turn turn).file (turn.file b.graph t) rest

theorem file_holds : ∀ {turns : List Turn} {b : Builder} {t : Attachments}, b.graph.Proper → t.Holds b.graph →
    (b.file t turns).Holds (b.run turns).graph
  | [], _, _, _, ht => ht
  | .request r :: _, b, _, hg, ht =>
    file_holds (b := b.turn (.request r)) (Request.left_proper hg) (Request.file_holds hg ht)
  | .reopen :: _, b, _, hg, ht => file_holds (b := b.turn .reopen) hg ht

/-- **After every session the table says what the graph says**, and nothing about those that are gone. -/
theorem session_attachments {schema : Schema} {turns : List Turn} (id : EntityId) :
    (∀ mapping, ((new schema).file .empty turns).read mapping id =
      ((new schema).run turns).graph.external? mapping id) ∧
    ((new schema).file .empty turns).readAll id = ((new schema).run turns).graph.externalsOf id ∧
    (((new schema).run turns).graph.contains id = false → ((new schema).file .empty turns).readAll id = []) := by
  have hholds : ((new schema).file .empty turns).Holds ((new schema).run turns).graph :=
    file_holds (Graph.empty_proper schema) fun _ _ => rfl
  refine ⟨fun mapping => hholds mapping id, hholds.readAll id, fun hgone => ?_⟩
  rw [hholds.readAll, Graph.externalsOf_eq, Graph.externals?_of_not_contains hgone]
  rfl

end Builder
end Reconciliation
