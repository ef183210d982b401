import Reconciliation.Proofs.Checking
import Reconciliation.Proofs.Content
/-!
# Searches through one index

An index is filled while it is searched: the first search for a kind groups its entities by hash, and every later one
for that kind goes through the same groups, whatever it looks for.  All the same each search finds what a plain scan of
the graph finds, of the entities that match the one with the lowest index (`Graph.scan`, `Graph.scan_eq_some_iff`):
- the entities of one hash are a part of the graph's own listing, in its order (`ContentIndex.bucket_eq`);
- what has the content that is looked for has its hash too, and what else has that hash is compared and passed over
  (`ContentIndex.Coherent.findByContent_scan`);
- a search leaves an index behind that the next search can go by (`ContentIndex.searchAll_eq`).

Of the hash nothing is used but that equal content has equal hashes.
-/
namespace Reconciliation

theorem EntityId.index_lt_of_lt {a b : EntityId} (h : compare a b = .lt) (hkind : a.kind = b.kind) : a.index < b.index := by
  have h : compareLex (compareOn EntityId.kind) (compareOn EntityId.index) a b = .lt := h
  simp only [compareLex, compareOn, hkind, Std.ReflOrd.compare_self, Ordering.then] at h
  exact Std.compare_eq_lt.1 h

namespace Graph

/-- **An entity is what a search looks for**: it is of the kind of `data`, has its content and is not to be skipped. -/
structure IsMatch (g : Graph) (data : Entity) (skip : EntityId → Bool) (id : EntityId) : Prop where
  kind : id.kind = data.kind
  free : skip id = false
  content : ∃ e, g.entity id = .ok e ∧ e.sameContent data = true

/-- **A plain scan**: the first entity of a kind, in the order of the graph, that a search may find. -/
def scan (g : Graph) (data : Entity) (skip : EntityId → Bool) : Option EntityId :=
  ((g.entities.filter (·.1.kind = data.kind)).find? fun b => !skip b.1 && b.2.sameContent data).map (·.1)

variable {g : Graph} {data : Entity} {skip : EntityId → Bool} {id : EntityId}

theorem entities_ascending (g : Graph) : g.entities.Pairwise fun a b => compare a.1 b.1 = .lt :=
  List.pairwise_map.2 g.nodes.ascending

theorem isMatch_iff : g.IsMatch data skip id ↔
    ∃ e, (id, e) ∈ g.entities.filter (·.1.kind = data.kind) ∧ (!skip id && e.sameContent data) = true := by
  simp only [List.mem_filter, mem_entities_iff, decide_eq_true_eq, Bool.and_eq_true, Bool.not_eq_true']
  exact ⟨fun ⟨hkind, hfree, e, he, hsame⟩ => ⟨e, ⟨he, hkind⟩, hfree, hsame⟩,
    fun ⟨e, ⟨he, hkind⟩, hfree, hsame⟩ => ⟨hkind, hfree, e, he, hsame⟩⟩

theorem scan_eq_none_iff : g.scan data skip = none ↔ ∀ id, ¬g.IsMatch data skip id := by
  simp only [scan, Option.map_eq_none_iff, List.find?_eq_none, isMatch_iff, Prod.forall, not_exists, not_and]

theorem scan_some (h : g.scan data skip = some id) :
    g.IsMatch data skip id ∧ ∀ other, g.IsMatch data skip other → id.index ≤ other.index := by
  obtain ⟨b, hfind, rfl⟩ := Option.map_eq_some_iff.1 h
  have hmatch : g.IsMatch data skip b.1 :=
    isMatch_iff.2 ⟨b.2, List.mem_of_find?_eq_some hfind, List.find?_some (a := b) hfind⟩
  refine ⟨hmatch, fun other hother => ?_⟩
  obtain ⟨d, hmem, htest⟩ := isMatch_iff.1 hother
  by_cases heq : (other, d) = b
  · rw [← heq]
    exact UInt32.le_refl _
  · have hlt := lt_of_find? (g.entities_ascending.filter _) hfind _ hmem htest heq
    exact UInt32.le_of_lt (EntityId.index_lt_of_lt hlt (hmatch.kind.trans hother.kind.symm))

theorem scan_eq_some_iff : g.scan data skip = some id ↔
    g.IsMatch data skip id ∧ ∀ other, g.IsMatch data skip other → id.index ≤ other.index := by
  refine ⟨scan_some, fun ⟨hmatch, hlowest⟩ => ?_⟩
  cases hscan : g.scan data skip with
  | none => exact absurd hmatch (scan_eq_none_iff.1 hscan id)
  | some found =>
    obtain ⟨hfound, hlow⟩ := scan_some hscan
    have hindex : found.index = id.index := UInt32.le_antisymm (hlow id hmatch) (hlowest found hfound)
    have hkind : found.kind = id.kind := hfound.kind.trans hmatch.kind.symm
    cases found
    cases id
    simp_all

theorem firstMatch_eq : ∀ {l : List (EntityId × Entity)}, (∀ b ∈ l, g.entity b.1 = .ok b.2) →
    g.firstMatch data skip (l.map (·.1)) = .ok ((l.find? fun b => !skip b.1 && b.2.sameContent data).map (·.1))
  | [], _ => rfl
  | (id, e) :: l, h => by
    obtain ⟨he, hl⟩ := List.forall_mem_cons.1 h
    rw [List.map_cons, firstMatch, List.find?_cons, firstMatch_eq hl, he]
    cases skip id with
    | true => rfl
    | false => cases hsame : e.sameContent data <;> simp [hsame]

end Graph

namespace ContentIndex

/-- **A search**: what is looked for, and what is to be skipped. -/
structure Search where
  data : Entity
  skip : EntityId → Bool

/-- **Searches one after the other**, each through the index that the one before leaves behind. -/
def searchAll (hash : Entity → UInt64) (g : Graph) :
    ContentIndex → List Search → List (Except StoreError (Option EntityId)) × ContentIndex
  | index, [] => ([], index)
  | index, s :: rest =>
    let (found, index) := index.findByContent hash g s.data s.skip
    let (others, index) := searchAll hash g index rest
    (found :: others, index)

variable {hash : Entity → UInt64} {g : Graph} {index : ContentIndex}

theorem Coherent.findByContent_scan (hhash : ∀ {a b : Entity}, a.sameContent b = true → hash a = hash b)
    (hi : index.Coherent hash g) (data : Entity) (skip : EntityId → Bool) :
    (index.findByContent hash g data skip).1 = .ok (g.scan data skip) := by
  have hthere : ∀ b ∈ (g.entities.filter (·.1.kind = data.kind)).filter (hash ·.2 = hash data), g.entity b.1 = .ok b.2 :=
    fun b hb => Graph.mem_entities_iff.1 (List.mem_of_mem_filter (List.mem_of_mem_filter hb))
  -- whoever passes the test of the scan is in the bucket
  have hbucket : ∀ b : EntityId × Entity, decide (decide (hash b.2 = hash data) = true ∧
      (!skip b.1 && b.2.sameContent data) = true) = (!skip b.1 && b.2.sameContent data) := fun b => by
    cases hsame : b.2.sameContent data with
    | false => simp
    | true => simp [hhash hsame]
  rw [hi.findByContent_eq, bucket_eq, Graph.firstMatch_eq hthere, List.find?_filter, funext hbucket, Graph.scan]

/-- **All searches through one index find what scans find.** -/
theorem searchAll_eq (hhash : ∀ {a b : Entity}, a.sameContent b = true → hash a = hash b) :
    ∀ {searches : List Search} {index : ContentIndex}, index.Coherent hash g →
      (index.searchAll hash g searches).1 = searches.map fun s => .ok (g.scan s.data s.skip)
  | [], _, _ => rfl
  | s :: rest, index, hi => by
    have hnext : (index.findByContent hash g s.data s.skip).2.Coherent hash g := hi.after_candidates s.data
    rw [searchAll, List.map_cons, ← hi.findByContent_scan hhash, ← searchAll_eq hhash hnext]

/-- **Searches through one index agree with plain scans**, whatever was looked for before and however many contents
share a hash: each finds, of the entities of the kind that have the content and are not skipped, the one with the lowest
index, and nothing when there is none. -/
theorem searchAll_lowest (hhash : ∀ {a b : Entity}, a.sameContent b = true → hash a = hash b) (g : Graph)
    (searches : List Search) :
    ((empty.searchAll hash g searches).1 = searches.map fun s => .ok (g.scan s.data s.skip)) ∧
      ∀ data skip, (g.scan data skip = none ↔ ∀ id, ¬g.IsMatch data skip id) ∧
        ∀ id, g.scan data skip = some id ↔
          g.IsMatch data skip id ∧ ∀ other, g.IsMatch data skip other → id.index ≤ other.index :=
  ⟨searchAll_eq hhash coherent_empty, fun _ _ => ⟨Graph.scan_eq_none_iff, fun _ => Graph.scan_eq_some_iff⟩⟩

/-- Three entities of a kind have the same content, from two sources, and one of another kind has the same attributes. -/
def namesakes : Graph :=
  let named (kind : Kind) (source : Source) (name : String) := (Entity.new kind source).set "name" (.text name)
  .ofNodes ⟨#[⟨"A", [], []⟩, ⟨"B", [], []⟩]⟩
    [(⟨0, 0⟩, named 0 "s" "x", []), (⟨0, 1⟩, named 0 "s" "y", []), (⟨0, 2⟩, named 0 "t" "x", []),
      (⟨0, 3⟩, named 0 "s" "x", []), (⟨1, 0⟩, named 1 "s" "x", [])] [(0, 4), (1, 1)]

def namesakeSearches : List Search :=
  [⟨(Entity.new 0 "u").set "name" (.text "y"), fun _ => false⟩,
    ⟨(Entity.new 0 "u").set "name" (.text "x"), fun _ => false⟩,
    ⟨(Entity.new 1 "u").set "name" (.text "y"), fun _ => false⟩,
    ⟨(Entity.new 0 "u").set "name" (.text "x"), fun id => id.index = 0⟩,
    ⟨(Entity.new 0 "u").set "name" (.text "x"), fun id => id.index ≠ 3⟩]

/-- By the digest, and by a hash that all content shares. -/
theorem namesakes_lowest : (∀ {a b : Entity}, a.sameContent b = true → a.digest = b.digest) ∧
    (empty.searchAll Entity.digest namesakes namesakeSearches).1 =
      [.ok (some ⟨0, 1⟩), .ok (some ⟨0, 0⟩), .ok none, .ok (some ⟨0, 2⟩), .ok (some ⟨0, 3⟩)] ∧
    (empty.searchAll (fun _ => 0) namesakes namesakeSearches).1 =
      [.ok (some ⟨0, 1⟩), .ok (some ⟨0, 0⟩), .ok none, .ok (some ⟨0, 2⟩), .ok (some ⟨0, 3⟩)] := by
  have hscans : (namesakeSearches.map fun s => (.ok (namesakes.scan s.data s.skip) : Except StoreError _)) =
      [.ok (some ⟨0, 1⟩), .ok (some ⟨0, 0⟩), .ok none, .ok (some ⟨0, 2⟩), .ok (some ⟨0, 3⟩)] := by decide +kernel
  have hdigest := @searchAll_lowest Entity.digest Entity.digest_eq_of_sameContent namesakes namesakeSearches
  have hshared := @searchAll_lowest (fun _ => 0) (fun _ => rfl) namesakes namesakeSearches
  exact ⟨Entity.digest_eq_of_sameContent, hdigest.1.trans hscans, hshared.1.trans hscans⟩

end ContentIndex
end Reconciliation
