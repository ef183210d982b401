import Mathlib.Data.Set.Function
import Reconciliation.Proofs.Arena
/-!
# Tracks as unfolded ancestors

A way up from an entity is a list of positions: which of its links is taken, which link of the parent there, and so on
(`Way`).  An ancestor that can be reached in several ways is at the end of each of them.

- There is a track of an entity over a finite map just when all that is above it is in the map, and nothing there is above
  itself (`ofMap_total_iff`).
- The numbered nodes of a track are the ways up, one node for each (`Arranged`).  A node's parents are one step further
  up, in the order of its entity's links, and each knows it as its child (`stands_entriesFrom`, by induction on the tree).
- The topmost ancestor is found just when no node has two parents (`singleRoot_ok_iff`).
-/
namespace Reconciliation
namespace Track

open Relation

variable {parents : SortedMap EntityId (List Link)} {start id x y : EntityId} {t : Track} {links : List Link}
  {ks ks' : List Nat} {k m n first : Nat} {c c' : Option Connection}

/-! ## When there is a track -/

/-- **A track is there** when the way up neither leaves the map nor comes back. -/
theorem ofMap_total_iff : (∃ t, ofMap parents start = .ok t) ↔ ∀ x, ReflTransGen (Above (parentsIn parents)) x start →
    parents.contains x = true ∧ ¬TransGen (Above (parentsIn parents)) x x := by
  constructor
  · rintro ⟨t, ht⟩ x hx
    obtain ⟨hunfolds, rfl⟩ := grow_unfolds ht
    obtain ⟨links, hlinks⟩ := hunfolds.known hx
    exact ⟨SortedMap.contains_iff.2 ⟨links, parentsIn_ok_iff.1 hlinks⟩, hunfolds.acyclic hx⟩
  · intro h
    have hsize : ∀ l : List EntityId, l.Nodup → (∀ x ∈ l, ReflTransGen (Above (parentsIn parents)) x start) →
        l.length ≤ parents.size := fun l hl hreach => length_le_of_contains hl fun x hx => (h x (hreach x hx)).1
    refine grow_total hsize (fun x hx => ?_) (fun x hx => (h x hx).2) start .refl
      (List.nodup_cons.2 ⟨List.not_mem_nil, .nil⟩) (fun x hx => by rw [List.mem_singleton.1 hx])
      (fun x hx => .inl (List.mem_singleton.1 hx)) (by rw [List.length_singleton]; omega)
    obtain ⟨links, hlinks⟩ := SortedMap.contains_iff.1 (h x hx).1
    exact ⟨links, parentsIn_ok_iff.2 hlinks, fun l hl => .head ⟨links, l.1, parentsIn_ok_iff.2 hlinks, hl⟩ hx⟩

/-! ## Ways up -/

/-- **A way up** takes one link after the other, each given by its position.  It ends with a link, unless it is still at
the start, and at an entity. -/
inductive Way (parents : SortedMap EntityId (List Link)) (start : EntityId) :
    List Nat → Option Connection → EntityId → Prop
  | here : Way parents start [] none start
  | up {ks : List Nat} {c : Option Connection} {x : EntityId} {links : List Link} {k : Nat} {l : Link}
    (before : Way parents start ks c x) (known : parents.get? x = some links) (link : links[k]? = some l) :
    Way parents start (ks ++ [k]) (some l.1) l.2

theorem Way.unique (h : Way parents start ks c x) (h' : Way parents start ks c' y) : c = c' ∧ x = y := by
  induction h generalizing c' y with
  | here =>
    generalize hks : ([] : List Nat) = ks at h'
    cases h' with
    | here => exact ⟨rfl, rfl⟩
    | up => simp at hks
  | @up ks c x links k l _ known link ih =>
    generalize hks : ks ++ [k] = ks' at h'
    cases h' with
    | here => simp at hks
    | up before' known' link' =>
      obtain ⟨rfl, heq⟩ := List.append_inj' hks rfl
      obtain rfl := List.singleton_inj.1 heq
      obtain ⟨-, rfl⟩ := ih before'
      obtain rfl := Option.some.inj (known.symm.trans known')
      obtain rfl := Option.some.inj (link.symm.trans link')
      exact ⟨rfl, rfl⟩

theorem Way.last (h : Way parents start (ks ++ [k]) c y) : ∃ c' x links l, Way parents start ks c' x ∧
    parents.get? x = some links ∧ links[k]? = some l ∧ c = some l.1 ∧ y = l.2 := by
  generalize hks : ks ++ [k] = ks' at h
  cases h with
  | here => simp at hks
  | up before known link =>
    obtain ⟨rfl, heq⟩ := List.append_inj' hks rfl
    obtain rfl := List.singleton_inj.1 heq
    exact ⟨_, _, _, _, before, known, link, rfl, rfl⟩

/-! ## The ways in a tree -/

mutual

/-- **The ways through a tree** to which `ks` leads, each before those that go on from it. -/
def waysFrom (ks : List Nat) : Track → List (List Nat)
  | .node _ ps => ks :: waysFromAll ks 0 ps

def waysFromAll (ks : List Nat) (k : Nat) : List (Connection × Track) → List (List Nat)
  | [] => []
  | (_, t) :: rest => waysFrom (ks ++ [k]) t ++ waysFromAll ks (k + 1) rest

end

mutual

theorem length_waysFrom : ∀ (ks : List Nat) (t : Track), (waysFrom ks t).length = t.size
  | ks, .node id ps => by rw [waysFrom, List.length_cons, length_waysFromAll, size]

theorem length_waysFromAll : ∀ (ks : List Nat) (k : Nat) (ps : List (Connection × Track)),
    (waysFromAll ks k ps).length = sizeAll ps
  | ks, k, [] => by rw [waysFromAll, sizeAll, List.length_nil]
  | ks, k, (c, t) :: rest => by
    rw [waysFromAll, List.length_append, length_waysFrom, length_waysFromAll, sizeAll]

end

mutual

theorem prefix_of_mem_waysFrom : ∀ {ks : List Nat} {t : Track}, ∀ w ∈ waysFrom ks t, ks <+: w
  | ks, .node id ps, w, h => by
    rw [waysFrom] at h
    rcases List.mem_cons.1 h with rfl | h
    · exact List.prefix_refl _
    · obtain ⟨j, -, hj⟩ := prefix_of_mem_waysFromAll w h
      exact (List.prefix_append ks [j]).trans hj

theorem prefix_of_mem_waysFromAll : ∀ {ks : List Nat} {k : Nat} {ps : List (Connection × Track)},
    ∀ w ∈ waysFromAll ks k ps, ∃ j, k ≤ j ∧ ks ++ [j] <+: w
  | ks, k, [], w, h => by
    rw [waysFromAll] at h
    cases h
  | ks, k, (c, t) :: rest, w, h => by
    rw [waysFromAll] at h
    rcases List.mem_append.1 h with h | h
    · exact ⟨k, Nat.le_refl k, prefix_of_mem_waysFrom w h⟩
    · obtain ⟨j, hj, hprefix⟩ := prefix_of_mem_waysFromAll w h
      exact ⟨j, Nat.le_of_succ_le hj, hprefix⟩

end

mutual

/-- **No way is listed twice**: those through different parents part there. -/
theorem waysFrom_nodup : ∀ (ks : List Nat) (t : Track), (waysFrom ks t).Nodup
  | ks, .node id ps => by
    rw [waysFrom, List.nodup_cons]
    refine ⟨fun hks => ?_, waysFromAll_nodup ks 0 ps⟩
    obtain ⟨j, -, hj⟩ := prefix_of_mem_waysFromAll ks hks
    have hle := hj.length_le
    rw [List.length_append, List.length_singleton] at hle
    omega

theorem waysFromAll_nodup : ∀ (ks : List Nat) (k : Nat) (ps : List (Connection × Track)), (waysFromAll ks k ps).Nodup
  | ks, k, [] => by
    rw [waysFromAll]
    exact .nil
  | ks, k, (c, t) :: rest => by
    rw [waysFromAll, List.nodup_append]
    refine ⟨waysFrom_nodup _ t, waysFromAll_nodup ks (k + 1) rest, fun w hw w' hw' heq => ?_⟩
    subst heq
    obtain ⟨j, hj, hprefix⟩ := prefix_of_mem_waysFromAll w hw'
    have hsame := List.prefix_of_prefix_length_le (prefix_of_mem_waysFrom w hw) hprefix (by simp)
    have heq := hsame.eq_of_length (by simp)
    simp at heq
    omega

end

theorem waysFrom_eq (ks : List Nat) (t : Track) : waysFrom ks t = ks :: waysFromAll ks 0 t.parents := by
  cases t
  rfl

/-! ## Nodes and ways -/

section
variable {α : Type} {a : α} {l l' all : List α}

theorem getElem?_of_prefix_cons (h : a :: l <+: all.drop first) : all[first]? = some a ∧ l <+: all.drop (first + 1) := by
  obtain ⟨rest, hrest⟩ := h
  constructor
  · have hhead : (all.drop first)[0]? = some a := by rw [← hrest]; rfl
    rwa [List.getElem?_drop, Nat.add_zero] at hhead
  · rw [← List.drop_drop, ← hrest]
    exact List.prefix_append l rest

theorem of_prefix_append (h : l ++ l' <+: all.drop first) : l <+: all.drop first ∧ l' <+: all.drop (first + l.length) := by
  refine ⟨(List.prefix_append l l').trans h, ?_⟩
  obtain ⟨rest, hrest⟩ := h
  rw [← List.drop_drop, ← hrest, List.append_assoc, List.drop_left]
  exact List.prefix_append l' rest

end

variable {all : List (List Nat)} {child : Option Nat} {e e' : Entry}

theorem getElem?_numbersOf : ∀ {ks : List Nat} {k first : Nat} {ps : List (Connection × Track)},
    waysFromAll ks k ps <+: all.drop first → ∀ {j m : Nat}, (numbersOf first ps)[j]? = some m →
      all[m]? = some (ks ++ [k + j])
  | ks, k, first, [], _, j, m, hm => by simp [numbersOf] at hm
  | ks, k, first, (c, t) :: rest, h, 0, m, hm => by
    obtain rfl : first = m := by simpa [numbersOf] using hm
    rw [waysFromAll, waysFrom_eq] at h
    exact (getElem?_of_prefix_cons h).1
  | ks, k, first, (c, t) :: rest, h, j + 1, m, hm => by
    rw [waysFromAll] at h
    have hrest := (of_prefix_append h).2
    rw [length_waysFrom] at hrest
    rw [numbersOf, List.getElem?_cons_succ] at hm
    rw [getElem?_numbersOf hrest hm]
    congr 3
    omega

theorem length_numbersOf {first : Nat} {ps : List (Connection × Track)} : (numbersOf first ps).length = ps.length := by
  induction ps generalizing first with
  | nil => rfl
  | cons p rest ih => rw [numbersOf, List.length_cons, ih, List.length_cons]

/-- **A node hangs on its child**: the way to it is one step longer.  The start hangs on nothing. -/
def Hangs (all : List (List Nat)) (ks : List Nat) : Option Nat → Prop
  | none => ks = []
  | some n => ∃ below k, all[n]? = some below ∧ ks = below ++ [k]

/-- **A node stands at the end of a way**, when `all` are the ways in the order of the nodes. -/
structure Stands (parents : SortedMap EntityId (List Link)) (start : EntityId) (all : List (List Nat)) (ks : List Nat)
    (e : Entry) : Prop where
  leads : Way parents start ks e.connection e.entity
  hangs : Hangs all ks e.child
  links : ∃ links, parents.get? e.entity = some links ∧ links.length = e.parents.length
  above : ∀ {k m}, e.parents[k]? = some m → all[m]? = some (ks ++ [k])

mutual

theorem stands_entriesFrom : ∀ {t : Track} {ks : List Nat} {first : Nat} {c : Option Connection} {child : Option Nat},
    t.Unfolds (parentsIn parents) → Way parents start ks c t.entity → Hangs all ks child →
      waysFrom ks t <+: all.drop first →
        List.Forall₂ (Stands parents start all) (waysFrom ks t) (entriesFrom first c child t)
  | .node id ps, ks, first, c, child, .node hlinks habove, hway, hhangs, h => by
    rw [waysFrom] at h ⊢
    rw [entriesFrom]
    obtain ⟨hks, hall⟩ := getElem?_of_prefix_cons h
    have hknown := parentsIn_ok_iff.1 hlinks
    refine .cons ⟨hway, hhangs, ⟨_, hknown, ?_⟩, fun hm => ?_⟩
      (stands_entriesFromAll habove hway hknown (List.prefix_refl _) hks hall)
    · rw [List.length_map, length_numbersOf]
    · simpa using getElem?_numbersOf hall hm

theorem stands_entriesFromAll : ∀ {ps : List (Connection × Track)} {ks : List Nat} {k first n : Nat}
    {c : Option Connection} {x : EntityId} {links : List Link}, (∀ l ∈ ps, l.2.Unfolds (parentsIn parents)) →
      Way parents start ks c x → parents.get? x = some links → ps.map (fun l => (l.1, l.2.entity)) <+: links.drop k →
        all[n]? = some ks → waysFromAll ks k ps <+: all.drop first →
          List.Forall₂ (Stands parents start all) (waysFromAll ks k ps) (entriesFromAll first n ps)
  | [], ks, k, first, n, c, x, links, _, _, _, _, _, _ => by
    rw [waysFromAll, entriesFromAll]
    exact .nil
  | (conn, t) :: rest, ks, k, first, n, c, x, links, hunfolds, hway, hknown, hps, hn, h => by
    rw [waysFromAll] at h ⊢
    rw [entriesFromAll]
    obtain ⟨hunfold, hothers⟩ := List.forall_mem_cons.1 hunfolds
    obtain ⟨hfirst, hrest⟩ := of_prefix_append h
    rw [length_waysFrom] at hrest
    obtain ⟨hlink, hlinks⟩ := getElem?_of_prefix_cons hps
    have hhangs : Hangs all (ks ++ [k]) (some n) := ⟨ks, k, hn, rfl⟩
    exact List.rel_append (stands_entriesFrom hunfold (hway.up hknown hlink) hhangs hfirst)
      (stands_entriesFromAll hothers hway hknown hlinks hn hrest)

end

/-! ## The arrangement of the nodes -/

/-- **The numbered nodes are the ways up.** -/
structure Arranged (parents : SortedMap EntityId (List Link)) (start : EntityId) (nodes : List Entry)
    (way : Nat → List Nat) : Prop where
  bijOn : Set.BijOn way {n | n < nodes.length} {ks | ∃ c x, Way parents start ks c x}
  first : ∃ above, nodes[0]? = some ⟨start, none, none, above⟩
  leads : ∀ {n : Nat} {e : Entry}, nodes[n]? = some e → Way parents start (way n) e.connection e.entity
  links : ∀ {n : Nat} {e : Entry}, nodes[n]? = some e → ∃ links, parents.get? e.entity = some links ∧
    List.Forall₂ (fun l m => ∃ e', nodes[m]? = some e' ∧ e'.connection = some l.1 ∧ e'.entity = l.2) links e.parents
  above : ∀ {n k m : Nat} {e : Entry}, nodes[n]? = some e → e.parents[k]? = some m → way m = way n ++ [k]
  inverse : ∀ {n m : Nat} {e : Entry}, nodes[n]? = some e →
    (m ∈ e.parents ↔ ∃ e', nodes[m]? = some e' ∧ e'.child = some n)
  start : ∀ {n : Nat} {e : Entry}, nodes[n]? = some e → (e.child = none ↔ n = 0)

section
variable {α β : Type} {R : α → β → Prop} {l : List α} {l' : List β} {a : α} {b : β}

theorem forall₂_getElem? (h : List.Forall₂ R l l') (ha : l[n]? = some a) : ∃ b, l'[n]? = some b ∧ R a b := by
  obtain ⟨hn, rfl⟩ := List.getElem?_eq_some_iff.1 ha
  have hn' : n < l'.length := h.length_eq ▸ hn
  exact ⟨_, List.getElem?_eq_getElem hn', h.get hn hn'⟩

theorem forall₂_getElem?_right (h : List.Forall₂ R l l') (hb : l'[n]? = some b) : ∃ a, l[n]? = some a ∧ R a b := by
  obtain ⟨hn, rfl⟩ := List.getElem?_eq_some_iff.1 hb
  have hn' : n < l.length := h.length_eq ▸ hn
  exact ⟨_, List.getElem?_eq_getElem hn', h.get hn' hn⟩

end

section
variable {nodes : List Entry} (hall : List.Forall₂ (Stands parents start all) all nodes)
include hall

theorem Way.covered (hfirst : all[0]? = some []) (h : Way parents start ks c x) : ∃ n : Nat, all[n]? = some ks := by
  induction h with
  | here => exact ⟨0, hfirst⟩
  | @up ks c x links k l before known link ih =>
    obtain ⟨n, hn⟩ := ih
    obtain ⟨e, -, he⟩ := forall₂_getElem? hall hn
    obtain ⟨-, rfl⟩ := before.unique he.leads
    obtain ⟨links', hlinks', hlength⟩ := he.links
    obtain rfl := Option.some.inj (known.symm.trans hlinks')
    have hk : k < e.parents.length := hlength ▸ (List.getElem?_eq_some_iff.1 link).1
    exact ⟨e.parents[k], he.above (List.getElem?_eq_getElem hk)⟩

theorem stands_links (hn : nodes[n]? = some e) : ∃ links, parents.get? e.entity = some links ∧
    List.Forall₂ (fun l m => ∃ e', nodes[m]? = some e' ∧ e'.connection = some l.1 ∧ e'.entity = l.2) links e.parents := by
  obtain ⟨ks, -, he⟩ := forall₂_getElem?_right hall hn
  obtain ⟨links, hlinks, hlength⟩ := he.links
  refine ⟨links, hlinks, List.forall₂_iff_get.2 ⟨hlength, fun k hk hk' => ?_⟩⟩
  obtain ⟨e', he', hstands⟩ := forall₂_getElem? hall (he.above (List.getElem?_eq_getElem hk'))
  obtain ⟨hconnection, hentity⟩ := hstands.leads.unique (he.leads.up hlinks (List.getElem?_eq_getElem hk))
  exact ⟨e', he', hconnection, hentity⟩

theorem stands_inverse (hnodup : all.Nodup) (hn : nodes[n]? = some e) :
    m ∈ e.parents ↔ ∃ e', nodes[m]? = some e' ∧ e'.child = some n := by
  obtain ⟨ks, hks, he⟩ := forall₂_getElem?_right hall hn
  have hlt := (List.getElem?_eq_some_iff.1 hks).1
  constructor
  · intro hm
    obtain ⟨k, hk⟩ := List.getElem?_of_mem hm
    obtain ⟨e', he', hstands⟩ := forall₂_getElem? hall (he.above hk)
    refine ⟨e', he', ?_⟩
    have hhangs := hstands.hangs
    cases hchild : e'.child with
    | none =>
      rw [hchild] at hhangs
      cases List.append_ne_nil_of_right_ne_nil ks (List.cons_ne_nil k []) hhangs
    | some n' =>
      rw [hchild] at hhangs
      obtain ⟨ks', k', hks', heq⟩ := hhangs
      obtain ⟨rfl, -⟩ := List.append_inj' heq rfl
      rw [(List.getElem?_inj hlt hnodup).1 (hks.trans hks'.symm)]
  · rintro ⟨e', he', hchild⟩
    obtain ⟨ks', hks', hstands⟩ := forall₂_getElem?_right hall he'
    have hhangs := hstands.hangs
    rw [hchild] at hhangs
    obtain ⟨below, k, hbelow, rfl⟩ := hhangs
    obtain rfl := Option.some.inj (hks.symm.trans hbelow)
    obtain ⟨c, x, links, l, hway, hlinks, hl, -, -⟩ := hstands.leads.last
    obtain ⟨-, rfl⟩ := hway.unique he.leads
    obtain ⟨links', hlinks', hlength⟩ := he.links
    obtain rfl := Option.some.inj (hlinks.symm.trans hlinks')
    have hk : k < e.parents.length := hlength ▸ (List.getElem?_eq_some_iff.1 hl).1
    have habove := he.above (List.getElem?_eq_getElem hk)
    rw [(List.getElem?_inj (List.getElem?_eq_some_iff.1 hks').1 hnodup).1 (hks'.trans habove.symm)]
    exact List.getElem_mem hk

theorem stands_start (hnodup : all.Nodup) (hfirst : all[0]? = some []) (hn : nodes[n]? = some e) :
    e.child = none ↔ n = 0 := by
  obtain ⟨ks, hks, he⟩ := forall₂_getElem?_right hall hn
  have hhangs := he.hangs
  cases hchild : e.child with
  | none =>
    rw [hchild] at hhangs
    obtain rfl : ks = [] := hhangs
    exact iff_of_true rfl ((List.getElem?_inj (List.getElem?_eq_some_iff.1 hks).1 hnodup).1 (hks.trans hfirst.symm))
  | some m =>
    rw [hchild] at hhangs
    obtain ⟨below, k, -, rfl⟩ := hhangs
    refine iff_of_false (Option.some_ne_none m) ?_
    rintro rfl
    rw [hfirst] at hks
    simp at hks

/-- **Nodes that stand at the ends of all the ways are arranged as these.** -/
theorem arranged (hnodup : all.Nodup) (hfirst : all[0]? = some []) :
    Arranged parents start nodes fun n => all.getD n [] := by
  have hway : ∀ {n : Nat} {ks : List Nat}, all[n]? = some ks → all.getD n [] = ks := fun h => by
    rw [List.getD_eq_getElem?_getD, h, Option.getD_some]
  have hleads : ∀ {n : Nat} {e : Entry}, nodes[n]? = some e → Way parents start (all.getD n []) e.connection e.entity := by
    intro n e hn
    obtain ⟨ks, hks, he⟩ := forall₂_getElem?_right hall hn
    rw [hway hks]
    exact he.leads
  refine ⟨⟨fun n hn => ?_, fun n hn m hm heq => ?_, ?_⟩, ?_, hleads, stands_links hall, fun hn hm => ?_,
    stands_inverse hall hnodup, stands_start hall hnodup hfirst⟩
  · exact ⟨_, _, hleads (List.getElem?_eq_getElem hn)⟩
  · have hn' : n < all.length := hall.length_eq ▸ hn
    have hm' : m < all.length := hall.length_eq ▸ hm
    have hsame : all[n]? = all[m]? := by
      rw [List.getElem?_eq_getElem hn', List.getElem?_eq_getElem hm', ← hway (List.getElem?_eq_getElem hn'),
        ← hway (List.getElem?_eq_getElem hm')]
      exact congrArg some heq
    exact (List.getElem?_inj hn' hnodup).1 hsame
  · rintro ks ⟨c, x, hks⟩
    obtain ⟨n, hn⟩ := hks.covered hall hfirst
    exact ⟨n, hall.length_eq ▸ (List.getElem?_eq_some_iff.1 hn).1, hway hn⟩
  · obtain ⟨e, he, hstands⟩ := forall₂_getElem? hall hfirst
    obtain ⟨hconnection, hentity⟩ := hstands.leads.unique .here
    refine ⟨e.parents, ?_⟩
    rw [he, ← hconnection, ← hentity, ← (stands_start hall hnodup hfirst he).2 rfl]
  · obtain ⟨ks, hks, he⟩ := forall₂_getElem?_right hall hn
    rw [hway hks, hway (he.above hm)]

end

/-! ## The topmost ancestor -/

theorem singleRoot_ok_iff : ∀ {t : Track} {first : Nat} {c : Option Connection} {child : Option Nat} {top : EntityId},
    t.singleRoot = .ok top ↔ (∀ e ∈ entriesFrom first c child t, e.parents.length ≤ 1) ∧
      ∃ e ∈ entriesFrom first c child t, e.parents = [] ∧ e.entity = top
  | .node id [], first, c, child, top => by simp [singleRoot, entriesFrom, entriesFromAll, numbersOf]
  | .node id [(conn, t)], first, c, child, top => by
    have ih : t.singleRoot = .ok top ↔ (∀ e ∈ entriesFrom (first + 1) (some conn) (some first) t, e.parents.length ≤ 1) ∧
        ∃ e ∈ entriesFrom (first + 1) (some conn) (some first) t, e.parents = [] ∧ e.entity = top := singleRoot_ok_iff
    rw [singleRoot, ih]
    simp [entriesFrom, entriesFromAll, numbersOf]
  | .node id (l :: l' :: rest), first, c, child, top => by
    simp [singleRoot, entriesFrom, numbersOf]

theorem singleRoot_total : ∀ {t : Track} {first : Nat} {c : Option Connection} {child : Option Nat},
    (∀ e ∈ entriesFrom first c child t, e.parents.length ≤ 1) → ∃ top, t.singleRoot = .ok top
  | .node id [], first, c, child, _ => ⟨id, rfl⟩
  | .node id [(conn, t)], first, c, child, h => by
    rw [entriesFrom, entriesFromAll, entriesFromAll, List.append_nil] at h
    exact singleRoot_total (t := t) (List.forall_mem_cons.1 h).2
  | .node id (l :: l' :: rest), first, c, child, h => by
    simp [entriesFrom, numbersOf] at h

/-! ## Tracks over finite maps -/

/-- **A track is the unfolded tree of ancestors.**  Filling it in ends, with the layout of what is grown.  It is there just
when all that is above the start is in the map, and nothing there is above itself.  Its nodes are then the ways up from the
start, and the topmost ancestor is found just when none of them has two parents. -/
theorem ofMap_arranged (parents : SortedMap EntityId (List Link)) (start : EntityId) :
    (∀ r, Fills parents start r ↔ (ofMap parents start).map layout = r) ∧
    ((∃ t, ofMap parents start = .ok t) ↔ ∀ x, ReflTransGen (Above (parentsIn parents)) x start →
      parents.contains x = true ∧ ¬TransGen (Above (parentsIn parents)) x x) ∧
    ∀ {t}, ofMap parents start = .ok t → (∃ way, Arranged parents start (layout t) way) ∧
      ((∃ top, t.singleRoot = .ok top) ↔ ∀ e ∈ layout t, e.parents.length ≤ 1) ∧
      ∀ {top}, t.singleRoot = .ok top → ∀ x, (∃ e ∈ layout t, e.parents = [] ∧ e.entity = x) ↔ x = top := by
  refine ⟨fun _ => fills_iff, ofMap_total_iff, fun {t} ht => ⟨?_, ?_, ?_⟩⟩
  · obtain ⟨hunfolds, rfl⟩ := grow_unfolds ht
    have hall : List.Forall₂ (Stands parents t.entity (waysFrom [] t)) (waysFrom [] t) (layout t) :=
      stands_entriesFrom hunfolds .here rfl (List.prefix_refl _)
    exact ⟨_, arranged hall (waysFrom_nodup [] t) (by rw [waysFrom_eq]; rfl)⟩
  · exact ⟨fun ⟨_, htop⟩ => (singleRoot_ok_iff.1 htop).1, singleRoot_total⟩
  · intro top htop x
    obtain ⟨hone, hroot⟩ := singleRoot_ok_iff.1 htop
    constructor
    · intro hx
      exact Except.ok.inj ((singleRoot_ok_iff.2 ⟨hone, hx⟩).symm.trans htop)
    · rintro rfl
      exact hroot

/-- `3#0` has the parents `1#0` and `2#0`, and both of these the parent `0#0`. -/
def kite : SortedMap EntityId (List Link) := .ofList
  [(⟨0, 0⟩, []), (⟨1, 0⟩, [(⟨0, 1, .many, .required⟩, ⟨0, 0⟩)]), (⟨2, 0⟩, [(⟨0, 2, .many, .required⟩, ⟨0, 0⟩)]),
    (⟨3, 0⟩, [(⟨1, 3, .many, .required⟩, ⟨1, 0⟩), (⟨2, 3, .many, .optional⟩, ⟨2, 0⟩)])]

/-- The nodes above `3#0`: its first parent with what is above it, and then the second one. -/
def unfoldedKite : List (EntityId × Option Nat × List Nat) :=
  [(⟨3, 0⟩, none, [1, 3]), (⟨1, 0⟩, some 0, [2]), (⟨0, 0⟩, some 1, []), (⟨2, 0⟩, some 0, [4]), (⟨0, 0⟩, some 3, [])]

theorem ofMap_arranged_kite :
    (∃ t way, ofMap kite ⟨3, 0⟩ = .ok t ∧ Arranged kite ⟨3, 0⟩ (layout t) way ∧
      (layout t).map (fun e => (e.entity, e.child, e.parents)) = unfoldedKite ∧ ¬∃ top, t.singleRoot = .ok top) ∧
    ∃ t, ofMap kite ⟨1, 0⟩ = .ok t ∧ t.singleRoot = .ok ⟨0, 0⟩ := by
  constructor
  · have hgrows : (ofMap kite ⟨3, 0⟩).toOption.any (fun t => decide
        ((layout t).map (fun e => (e.entity, e.child, e.parents)) = unfoldedKite ∧
          ¬∀ e ∈ layout t, e.parents.length ≤ 1)) = true := by decide +kernel
    obtain ⟨t, ht, htest⟩ := exists_of_any hgrows
    obtain ⟨hlayout, htwo⟩ := of_decide_eq_true htest
    obtain ⟨⟨way, hway⟩, hsingle, -⟩ := (ofMap_arranged kite ⟨3, 0⟩).2.2 ht
    exact ⟨t, way, ht, hway, hlayout, fun hroot => htwo (hsingle.1 hroot)⟩
  · have hgrows : (ofMap kite ⟨1, 0⟩).toOption.any (fun t => decide
        ((∀ e ∈ layout t, e.parents.length ≤ 1) ∧ ∃ e ∈ layout t, e.parents = [] ∧ e.entity = ⟨0, 0⟩)) = true := by
      decide +kernel
    obtain ⟨t, ht, htest⟩ := exists_of_any hgrows
    obtain ⟨hone, hroot⟩ := of_decide_eq_true htest
    obtain ⟨-, hsingle, htop⟩ := (ofMap_arranged kite ⟨1, 0⟩).2.2 ht
    obtain ⟨top, hsome⟩ := hsingle.2 hone
    obtain rfl := (htop hsome ⟨0, 0⟩).1 hroot
    exact ⟨t, ht, hsome⟩

end Track
end Reconciliation
