import Mathlib.Data.List.Lex
import Mathlib.Data.List.Nodup
import Reconciliation.Proofs.Cascades
/-!
# The order of a removal

An entity is removed with all that requires it, in the order in which a depth-first walk comes to it.  Each walk down from
the entity is a list of required links (`Graph.Descends`), and such ways are ordered like words: by the first link at which
they part, links by connection and then by child (`Earlier`).  The walk comes to everybody on the first of all ways that
lead there (`Graph.FirstWay`), and so what goes is listed in the order of these ways
(`Graph.Lawful.requiredClosure_inOrder`).

A parent is therefore listed before its child unless another way, earlier than all those to the parent, leads to the
child.  This can only happen to a child with several parents in the list (`Builder.reachable_remove_precedes`).
-/
namespace Reconciliation

open Relation

/-! ## Ways -/

/-- One link comes before another one: by connection, and then by the entity that it leads to. -/
def Link.Before (l m : Link) : Prop := compareLex (compareOn Prod.fst) (compareOn Prod.snd) l m = .lt

/-- **One way is earlier than another one**: the other one goes on where it ends, or where they part it takes the link
that comes before. -/
def Earlier : List Link → List Link → Prop := List.Lex Link.Before

/-- Two ways part, and the first one is the earlier. -/
def Forks (a b : List Link) : Prop := Earlier a b ∧ ¬ a <+: b

variable {a b c u v : List Link} {l m : Link}

theorem Link.Before.trans {l m n : Link} (h : l.Before m) (h' : m.Before n) : l.Before n := Std.TransCmp.lt_trans h h'

theorem Link.Before.ne (h : l.Before m) : l ≠ m := by
  rintro rfl
  exact absurd (h.symm.trans Std.ReflCmp.compare_self) (by decide)

theorem Link.Before.asymm (h : l.Before m) : ¬ m.Before l := fun h' => (h.trans h').ne rfl

theorem Earlier.trans (h : Earlier a b) (h' : Earlier b c) : Earlier a c := List.lex_trans Link.Before.trans h h'

theorem Earlier.asymm (h : Earlier a b) : ¬ Earlier b a := List.lex_asymm Link.Before.asymm h

theorem Earlier.irrefl (a : List Link) : ¬ Earlier a a := List.lex_irrefl (fun _ h => h.ne rfl) a

theorem earlier_append (a : List Link) (l : Link) (u : List Link) : Earlier a (a ++ l :: u) := by
  have h := List.Lex.append_left Link.Before (.nil (a := l) (l := u)) a
  rwa [List.append_nil] at h

/-- A way that goes on where another one ends is that one, or later. -/
theorem eq_or_earlier_of_prefix (h : a <+: b) : b = a ∨ Earlier a b := by
  obtain ⟨u, rfl⟩ := h
  cases u with
  | nil => exact .inl (List.append_nil a)
  | cons l u => exact .inr (earlier_append a l u)

theorem Forks.append (h : Forks a b) : Earlier (a ++ u) (b ++ v) := by
  obtain ⟨hearlier, hpart⟩ := h
  induction hearlier with
  | nil => exact absurd List.nil_prefix hpart
  | rel hbefore => exact .rel hbefore
  | cons _ ih => exact .cons (ih fun hprefix => hpart (List.cons_prefix_cons.2 ⟨rfl, hprefix⟩))

theorem Forks.append_left (h : Forks a b) : Forks (a ++ u) b :=
  ⟨by simpa using h.append (u := u) (v := []), fun hprefix => h.2 ((List.prefix_append a u).trans hprefix)⟩

theorem forks_concat (a : List Link) (h : l.Before m) : Forks (a ++ [l]) (a ++ [m]) := by
  refine ⟨List.Lex.append_left Link.Before (.rel h) a, fun hprefix => h.ne ?_⟩
  have heq : [l] <+: [m] := (List.prefix_append_right_inj a).1 hprefix
  simpa using heq

theorem pair_sublist_or {α : Type} {e f : α} (hne : e ≠ f) : ∀ {l : List α}, e ∈ l → f ∈ l →
    [e, f].Sublist l ∨ [f, e].Sublist l
  | [], he, _ => absurd he List.not_mem_nil
  | a :: l, he, hf => by
    rcases List.mem_cons.1 he with rfl | hel
    · exact .inl (List.cons_sublist_cons.2 (List.singleton_sublist.2 ((List.mem_cons.1 hf).resolve_left hne.symm)))
    rcases List.mem_cons.1 hf with rfl | hfl
    · exact .inr (List.cons_sublist_cons.2 (List.singleton_sublist.2 hel))
    · exact (pair_sublist_or hne hel hfl).imp (.cons a) (.cons a)

namespace Graph

variable {g : Graph} {root x y z : EntityId}

/-! ## Ways down -/

/-- The links through which an entity is required, in order. -/
def requiredLinks (g : Graph) (x : EntityId) : List Link := (g.childLinks x).filter (·.1.isRequired)

/-- **A way down**: required links, each from a parent to the child that the next one starts from. -/
inductive Descends (g : Graph) : EntityId → List Link → EntityId → Prop
  | here (x : EntityId) : Descends g x [] x
  | down {x y : EntityId} {l : Link} {way : List Link} (first : l ∈ g.requiredLinks x) (rest : Descends g l.2 way y) :
    Descends g x (l :: way) y

/-- **The first way to an entity**: whatever other way leads there is later. -/
structure FirstWay (g : Graph) (root : EntityId) (way : List Link) (x : EntityId) : Prop where
  descends : g.Descends root way x
  first : ∀ {other}, g.Descends root other x → other = way ∨ Earlier way other

theorem dependents_eq (g : Graph) (x : EntityId) : g.dependents x = (g.requiredLinks x).map (·.2) := rfl

theorem mem_requiredLinks_iff : l ∈ g.requiredLinks x ↔
    ∃ n, g.nodes.get? l.2 = some n ∧ (l.1, x) ∈ n.parents ∧ l.1.isRequired = true := by
  have hlink : l ∈ g.childLinks x ↔ ∃ n, g.nodes.get? l.2 = some n ∧ (l.1, x) ∈ n.parents := mem_childLinks_iff
  rw [requiredLinks, List.mem_filter, hlink]
  exact ⟨fun ⟨⟨n, hn, hmem⟩, hreq⟩ => ⟨n, hn, hmem, hreq⟩, fun ⟨n, hn, hmem, hreq⟩ => ⟨⟨n, hn, hmem⟩, hreq⟩⟩

theorem isRequiredParent_iff_mem : g.IsRequiredParent x y ↔ ∃ c, (c, y) ∈ g.requiredLinks x := by
  simp only [mem_requiredLinks_iff]
  exact ⟨fun ⟨n, c, h⟩ => ⟨c, n, h⟩, fun ⟨c, n, h⟩ => ⟨n, c, h⟩⟩

theorem Descends.append {w : List Link} (h : g.Descends x v y) (h' : g.Descends y w z) : g.Descends x (v ++ w) z := by
  induction h with
  | here => exact h'
  | down first _ ih => exact .down first (ih h')

theorem Descends.concat (h : g.Descends x v y) (hl : l ∈ g.requiredLinks y) : g.Descends x (v ++ [l]) l.2 :=
  h.append (.down hl (.here _))

theorem descends_append_iff {w : List Link} : g.Descends x (v ++ w) z ↔ ∃ y, g.Descends x v y ∧ g.Descends y w z := by
  constructor
  · intro h
    induction v generalizing x with
    | nil => exact ⟨x, .here x, h⟩
    | cons l v ih =>
      cases h with
      | down first rest =>
        obtain ⟨y, hy, hz⟩ := ih rest
        exact ⟨y, .down first hy, hz⟩
  · rintro ⟨y, h, h'⟩
    exact h.append h'

theorem Descends.unique (h : g.Descends x v y) (h' : g.Descends x v z) : y = z := by
  induction h with
  | here => cases h'; rfl
  | down _ _ ih => cases h' with | down _ rest => exact ih rest

theorem Descends.reach (h : g.Descends x v y) : ReflTransGen g.IsRequiredParent x y := by
  induction h with
  | here => exact .refl
  | down first _ ih => exact .head (isRequiredParent_iff_mem.2 ⟨_, first⟩) ih

theorem IsRequiredParent.isParent (h : g.IsRequiredParent x y) : g.IsParent x y :=
  let ⟨n, c, hn, hmem, _⟩ := h
  ⟨n, c, hn, hmem⟩

theorem Lawful.descends_self (hg : g.Lawful) (h : g.Descends x v x) : v = [] := by
  cases h with
  | here => rfl
  | down first rest =>
    have hstep := (isRequiredParent_iff_mem.2 ⟨_, first⟩).isParent
    exact absurd (TransGen.head' hstep (rest.reach.lift id fun _ _ => IsRequiredParent.isParent)) (hg.acyclic x)

theorem Lawful.childLinks_nodup (hg : g.Lawful) (x : EntityId) : (g.childLinks x).Nodup := by
  refine (sortBy_perm _ _).nodup_iff.2 (List.nodup_flatMap.2 ⟨fun b hb => ?_, ?_⟩)
  · have hparents : (b.2.parents.map Prod.fst).Nodup := hg.connections (SortedMap.get?_eq_some_iff.2 hb)
    refine List.Nodup.of_map Prod.fst ?_
    rw [List.map_map]
    exact hparents.sublist (List.filter_sublist.map Prod.fst)
  · refine (List.pairwise_map.1 (List.nodup_iff_pairwise_ne.1 g.nodes.keys_nodup)).imp fun {b b'} hne l hl hl' => hne ?_
    obtain ⟨_, -, rfl⟩ := List.mem_map.1 hl
    obtain ⟨_, -, heq⟩ := List.mem_map.1 hl'
    exact (Prod.mk.inj heq).2.symm

theorem Lawful.requiredLinks_ascending (hg : g.Lawful) (x : EntityId) : (g.requiredLinks x).Pairwise Link.Before := by
  have hsorted : (g.childLinks x).Pairwise fun l m => (compareLex (compareOn Prod.fst) (compareOn Prod.snd) l m).isLE :=
    sortBy_inOrder _
  refine ((hsorted.and (List.nodup_iff_pairwise_ne.1 (hg.childLinks_nodup x))).imp ?_).filter _
  rintro ⟨c, y⟩ ⟨d, z⟩ ⟨hle, hne⟩
  rcases Ordering.isLE_iff_eq_lt_or_eq_eq.1 hle with hlt | heq
  · exact hlt
  · simp only [compareLex_eq_eq, compareOn, Std.LawfulEqCmp.compare_eq_iff_eq] at heq
    exact absurd (Prod.ext heq.1 heq.2) hne

/-! ## The walk -/

/-- **How far a walk has come**: `done` are the entities that were visited, each with the first way to it, and `todo` are
those that lie on the stack, each with the way on which it was put there.

The ways on the stack have all parted, and every way down that does not end in what was visited goes on from one of
them.  So nothing is missed that comes before the top of the stack. -/
structure Walking (g : Graph) (root : EntityId) (done todo : List (List Link × EntityId)) : Prop where
  first : ∀ e ∈ done, g.FirstWay root e.1 e.2
  inOrder : (done.map Prod.fst).Pairwise Earlier
  descends : ∀ e ∈ todo, g.Descends root e.1 e.2
  forks : (todo.map Prod.fst).Pairwise Forks
  later : ∀ d ∈ done, ∀ e ∈ todo, Earlier d.1 e.1
  covers : ∀ {way x}, g.Descends root way x → x ∈ done.map Prod.snd ∨ ∃ e ∈ todo, e.1 <+: way

namespace Walking

variable {done rest : List (List Link × EntityId)} {way : List Link}

theorem start (g : Graph) (root : EntityId) : g.Walking root [] [([], root)] where
  first _ h := by cases h
  inOrder := .nil
  descends e he := by
    obtain rfl := List.mem_singleton.1 he
    exact .here root
  forks := List.pairwise_singleton ..
  later _ h := by cases h
  covers _ := .inr ⟨_, List.mem_singleton_self _, List.nil_prefix⟩

theorem top_le (h : g.Walking root done ((way, x) :: rest)) {e : List Link × EntityId} (he : e ∈ (way, x) :: rest) :
    e.1 = way ∨ Earlier way e.1 := by
  rcases List.mem_cons.1 he with rfl | he
  · exact .inl rfl
  · exact .inr (List.rel_of_pairwise_cons h.forks (List.mem_map_of_mem he)).1

/-- **Whoever is visited is visited on the first way**: an earlier one would go on from something below on the stack. -/
theorem firstWay (h : g.Walking root done ((way, x) :: rest)) (hnew : x ∉ done.map Prod.snd) : g.FirstWay root way x where
  descends := h.descends _ List.mem_cons_self
  first hother := by
    obtain ⟨e, he, hprefix⟩ := (h.covers hother).resolve_left hnew
    rcases h.top_le he with heq | hearlier
    · exact eq_or_earlier_of_prefix (heq ▸ hprefix)
    · rcases eq_or_earlier_of_prefix hprefix with heq | hlater
      · exact .inr (heq ▸ hearlier)
      · exact .inr (hearlier.trans hlater)

/-- **What was visited before can be passed over.**  What the way to it goes on to was reached on its first way, which
has parted from this one since nothing lies below itself. -/
theorem skip (hg : g.Lawful) (h : g.Walking root done ((way, x) :: rest)) (hseen : x ∈ done.map Prod.snd) :
    g.Walking root done rest where
  first := h.first
  inOrder := h.inOrder
  descends e he := h.descends e (List.mem_cons_of_mem _ he)
  forks := h.forks.of_cons
  later d hd e he := h.later d hd e (List.mem_cons_of_mem _ he)
  covers {other y} hother := by
    rcases h.covers hother with hy | ⟨e, he, hprefix⟩
    · exact .inl hy
    rcases List.mem_cons.1 he with rfl | he
    case inr => exact .inr ⟨e, he, hprefix⟩
    obtain ⟨beyond, rfl⟩ := hprefix
    obtain ⟨x', hx', hbeyond⟩ := descends_append_iff.1 hother
    obtain rfl := (h.descends _ List.mem_cons_self).unique hx'
    obtain ⟨d, hd, rfl⟩ := List.mem_map.1 hseen
    have hfirst := (h.first d hd).descends
    have hearlier : Earlier d.1 way := h.later d hd _ List.mem_cons_self
    have hparts : ¬ d.1 <+: way := by
      rintro ⟨circle, rfl⟩
      obtain ⟨d', hd', hcircle⟩ := descends_append_iff.1 hx'
      obtain rfl := hfirst.unique hd'
      rw [hg.descends_self hcircle, List.append_nil] at hearlier
      exact Earlier.irrefl _ hearlier
    have hforks : Forks d.1 way := ⟨hearlier, hparts⟩
    rcases h.covers (hfirst.append hbeyond) with hy | ⟨e, he, hprefix⟩
    · exact .inl hy
    · -- the first way goes on before the top of the stack, so nothing on the stack is its beginning
      have hbefore : Earlier (d.1 ++ beyond) way := by simpa using hforks.append (u := beyond) (v := [])
      have hle : Earlier e.1 way := by
        rcases eq_or_earlier_of_prefix hprefix with heq | hlater
        · exact heq ▸ hbefore
        · exact hlater.trans hbefore
      rcases h.top_le he with heq | hlater
      · exact absurd (heq ▸ hle) (Earlier.irrefl _)
      · exact absurd hle hlater.asymm

/-- The ways to the children of an entity. -/
def onward (g : Graph) (way : List Link) (x : EntityId) : List (List Link × EntityId) :=
  (g.requiredLinks x).map fun l => (way ++ [l], l.2)

theorem onward_snd (way : List Link) (x : EntityId) : (onward g way x).map Prod.snd = g.dependents x := by
  rw [onward, List.map_map, dependents_eq]
  rfl

theorem visit (hg : g.Lawful) (h : g.Walking root done ((way, x) :: rest)) (hnew : x ∉ done.map Prod.snd) :
    g.Walking root (done ++ [(way, x)]) (onward g way x ++ rest) where
  first e he := by
    rcases List.mem_append.1 he with he | he
    · exact h.first e he
    · obtain rfl := List.mem_singleton.1 he
      exact h.firstWay hnew
  inOrder := by
    rw [List.map_append, List.pairwise_append]
    refine ⟨h.inOrder, List.pairwise_singleton .., fun a ha b hb => ?_⟩
    obtain ⟨d, hd, rfl⟩ := List.mem_map.1 ha
    obtain rfl := List.mem_singleton.1 hb
    exact h.later d hd _ List.mem_cons_self
  descends e he := by
    rcases List.mem_append.1 he with he | he
    · obtain ⟨l, hl, rfl⟩ := List.mem_map.1 he
      exact (h.descends _ List.mem_cons_self).concat hl
    · exact h.descends e (List.mem_cons_of_mem _ he)
  forks := by
    rw [List.map_append, List.pairwise_append]
    refine ⟨?_, h.forks.of_cons, fun a ha b hb => ?_⟩
    · rw [onward, List.map_map, List.pairwise_map]
      exact (hg.requiredLinks_ascending x).imp fun hbefore => forks_concat way hbefore
    · obtain ⟨e, he, rfl⟩ := List.mem_map.1 ha
      obtain ⟨l, -, rfl⟩ := List.mem_map.1 he
      exact (List.rel_of_pairwise_cons h.forks hb).append_left
  later d hd e he := by
    have htop : ∀ e ∈ onward g way x ++ rest, Earlier way e.1 := fun e he => by
      rcases List.mem_append.1 he with he | he
      · obtain ⟨l, -, rfl⟩ := List.mem_map.1 he
        exact earlier_append way l []
      · exact (List.rel_of_pairwise_cons h.forks (List.mem_map_of_mem he)).1
    rcases List.mem_append.1 hd with hd | hd
    · exact (h.later d hd _ List.mem_cons_self).trans (htop e he)
    · obtain rfl := List.mem_singleton.1 hd
      exact htop e he
  covers {other y} hother := by
    rw [List.map_append]
    rcases h.covers hother with hy | ⟨e, he, hprefix⟩
    · exact .inl (List.mem_append_left _ hy)
    rcases List.mem_cons.1 he with rfl | he
    case inr => exact .inr ⟨e, List.mem_append_right _ he, hprefix⟩
    -- a way that went on from the visited entity ends there, or goes on from one of its children
    obtain ⟨beyond, rfl⟩ := hprefix
    obtain ⟨x', hx', hbeyond⟩ := descends_append_iff.1 hother
    obtain rfl := (h.descends _ List.mem_cons_self).unique hx'
    cases hbeyond with
    | here => exact .inl (List.mem_append_right _ (List.mem_singleton_self _))
    | @down _ _ l beyond hl _ =>
      refine .inr ⟨(way ++ [l], l.2), List.mem_append_left _ (List.mem_map.2 ⟨l, hl, rfl⟩), beyond, ?_⟩
      exact List.append_assoc way [l] beyond

end Walking

/-- **A walk comes to everybody on the first way**, in the order of these ways. -/
theorem Lawful.walk_inOrder (hg : g.Lawful) : ∀ {steps : Nat} {done todo : List (List Link × EntityId)},
    g.Walking root done todo → ∃ visits : List (List Link × EntityId),
      walk g.dependents steps (todo.map Prod.snd) (done.map Prod.snd).reverse = visits.map Prod.snd ∧
      (∀ e ∈ visits, g.FirstWay root e.1 e.2) ∧ (visits.map Prod.fst).Pairwise Earlier
  | 0, done, _, h => ⟨done, List.reverse_reverse _, h.first, h.inOrder⟩
  | _ + 1, done, [], h => ⟨done, List.reverse_reverse _, h.first, h.inOrder⟩
  | steps + 1, done, (way, x) :: rest, h => by
    rw [List.map_cons, walk]
    split
    · next hmem =>
      have hseen : x ∈ done.map Prod.snd := List.mem_reverse.1 (List.contains_iff_mem.1 hmem)
      exact hg.walk_inOrder (h.skip hg hseen)
    · next hmem =>
      have hnew : x ∉ done.map Prod.snd := fun hx => hmem (List.contains_iff_mem.2 (List.mem_reverse.2 hx))
      have hnext := @Lawful.walk_inOrder hg steps _ _ (h.visit hg hnew)
      rwa [List.map_append, List.map_append, List.reverse_append, Walking.onward_snd] at hnext

theorem Lawful.requiredClosure_inOrder (hg : g.Lawful) (root : EntityId) : ∃ visits : List (List Link × EntityId),
    g.requiredClosure root = visits.map Prod.snd ∧ (∀ e ∈ visits, g.FirstWay root e.1 e.2) ∧
      (visits.map Prod.fst).Pairwise Earlier :=
  hg.walk_inOrder (Walking.start g root)

/-! ## Who is listed before whom -/

/-- **One entity is listed before another one exactly when a way to it is earlier than all ways to the other.** -/
theorem Lawful.precedes_iff (hg : g.Lawful) (hx : x ∈ g.requiredClosure root) (hy : y ∈ g.requiredClosure root) :
    [x, y].Sublist (g.requiredClosure root) ↔
      ∃ way, g.Descends root way x ∧ ∀ {other}, g.Descends root other y → Earlier way other := by
  obtain ⟨visits, heq, hfirst, hinOrder⟩ := hg.requiredClosure_inOrder root
  rw [List.pairwise_map] at hinOrder
  rw [heq] at hx hy ⊢
  constructor
  · intro h
    obtain ⟨l, hl, hmap⟩ := List.sublist_map_iff.1 h
    obtain ⟨e, f, rfl⟩ : ∃ e f, l = [e, f] := List.length_eq_two.1 (by simpa using (congrArg List.length hmap).symm)
    obtain ⟨rfl, rfl⟩ : x = e.2 ∧ y = f.2 := by simpa using hmap
    have hbefore := List.pairwise_pair.1 (hinOrder.sublist hl)
    refine ⟨e.1, (hfirst e (hl.subset (by simp))).descends, fun hother => ?_⟩
    rcases (hfirst f (hl.subset (by simp))).first hother with rfl | hlater
    · exact hbefore
    · exact hbefore.trans hlater
  · rintro ⟨way, hway, hall⟩
    obtain ⟨e, he, rfl⟩ := List.mem_map.1 hx
    obtain ⟨f, hf, rfl⟩ := List.mem_map.1 hy
    have hbefore : Earlier e.1 f.1 := by
      have hlast := hall (hfirst f hf).descends
      rcases (hfirst e he).first hway with rfl | hearlier
      · exact hlast
      · exact hearlier.trans hlast
    have hne : e ≠ f := fun h => Earlier.irrefl f.1 (h ▸ hbefore)
    rcases pair_sublist_or hne he hf with h | h
    · exact h.map Prod.snd
    · have hafter := List.pairwise_pair.1 (hinOrder.sublist h)
      exact absurd hafter hbefore.asymm

theorem Lawful.precedes_of_only (hg : g.Lawful) (hx : x ∈ g.requiredClosure root) (hstep : g.IsRequiredParent x y)
    (honly : ∀ z ∈ g.requiredClosure root, g.IsRequiredParent z y → z = x) : [x, y].Sublist (g.requiredClosure root) := by
  have hy : y ∈ g.requiredClosure root := mem_requiredClosure_iff.2 ((mem_requiredClosure_iff.1 hx).tail hstep)
  obtain ⟨visits, heq, hfirst, -⟩ := hg.requiredClosure_inOrder root
  obtain ⟨e, he, rfl⟩ := List.mem_map.1 (heq ▸ hx)
  refine (hg.precedes_iff hx hy).2 ⟨e.1, (hfirst e he).descends, fun {other} hother => ?_⟩
  rcases List.eq_nil_or_concat other with rfl | ⟨way, l, rfl⟩
  · -- the child is not where the ways start, since that would lie below itself
    cases hother
    have hbelow := (mem_requiredClosure_iff.1 hx).lift id fun _ _ => IsRequiredParent.isParent
    exact absurd (TransGen.tail' hbelow hstep.isParent) (hg.acyclic _)
  · rw [List.concat_eq_append] at hother ⊢
    obtain ⟨z, hz, hlast⟩ := descends_append_iff.1 hother
    cases hlast with
    | down hl rest =>
      cases rest
      obtain rfl := honly z (mem_requiredClosure_iff.2 hz.reach) (isRequiredParent_iff_mem.2 ⟨l.1, hl⟩)
      rcases (hfirst e he).first hz with rfl | hearlier
      · exact earlier_append e.1 l []
      · exact hearlier.trans (earlier_append way l [])

end Graph

namespace Builder

variable {b : Builder}

/-- **When a parent is listed before its child.**  Removing an entity of a reachable graph lists a parent before a child
that requires it exactly when a way down to the parent is earlier than all ways down to the child, and in any case when
nobody else that is listed is required by the child. -/
theorem reachable_remove_precedes (hb : b.Reachable) {id : EntityId} (hid : b.graph.contains id = true) :
    ∃ gone g', Graph.remove id b.graph = .ok gone g' ∧ gone.Nodup ∧
      (∀ x, x ∈ gone ↔ ReflTransGen b.graph.IsRequiredParent id x) ∧
      ∀ parent child, parent ∈ gone → b.graph.IsRequiredParent parent child →
        ([parent, child].Sublist gone ↔ ∃ way, b.graph.Descends id way parent ∧
          ∀ {other}, b.graph.Descends id other child → Earlier way other) ∧
        ((∀ other ∈ gone, b.graph.IsRequiredParent other child → other = parent) → [parent, child].Sublist gone) := by
  obtain ⟨gone, g', h⟩ := Graph.remove_total hid
  obtain ⟨rfl, -⟩ := Graph.remove_eq h
  have hg := hb.intact.1.toLawful
  refine ⟨_, g', h, b.graph.requiredClosure_nodup id, fun x => Graph.mem_requiredClosure_iff,
    fun parent child hparent hstep => ⟨hg.precedes_iff hparent ?_, hg.precedes_of_only hparent hstep⟩⟩
  exact Graph.mem_requiredClosure_iff.2 ((Graph.mem_requiredClosure_iff.1 hparent).tail hstep)

/-- `1#0` requires `0#0` and `2#0`, which requires `0#0` in turn; `3#0` requires `2#0` alone. -/
def straddled : Builder := (new ⟨#[⟨"A", [], []⟩, ⟨"B", [], [⟨0, 1, .many, .required⟩, ⟨2, 1, .many, .required⟩]⟩,
    ⟨"C", [], [⟨0, 2, .many, .required⟩]⟩, ⟨"D", [], [⟨2, 3, .many, .required⟩]⟩]⟩).run [
  .request (.add (.new 0 "s") []),
  .request (.add (.new 2 "s") [(⟨0, 2, .many, .required⟩, ⟨0, 0⟩)]),
  .request (.add (.new 1 "s") [(⟨0, 1, .many, .required⟩, ⟨0, 0⟩), (⟨2, 1, .many, .required⟩, ⟨2, 0⟩)]),
  .request (.add (.new 3 "s") [(⟨2, 3, .many, .required⟩, ⟨2, 0⟩)])]

theorem straddled_reachable : straddled.Reachable := ⟨_, _, rfl⟩

theorem straddled_removes : ∃ g', Graph.remove ⟨0, 0⟩ straddled.graph = .ok [⟨0, 0⟩, ⟨1, 0⟩, ⟨2, 0⟩, ⟨3, 0⟩] g' := by
  have hcheck : succeedsWith (Graph.remove ⟨0, 0⟩ straddled.graph) (fun gone _ =>
      gone = [⟨0, 0⟩, ⟨1, 0⟩, ⟨2, 0⟩, ⟨3, 0⟩]) = true := by decide +kernel
  obtain ⟨gone, g', h, hgone⟩ := exists_of_succeedsWith hcheck
  exact ⟨g', h.trans (by rw [of_decide_eq_true hgone])⟩

theorem straddled_requires : straddled.graph.IsRequiredParent ⟨2, 0⟩ ⟨1, 0⟩ ∧
    straddled.graph.IsRequiredParent ⟨2, 0⟩ ⟨3, 0⟩ :=
  ⟨Graph.mem_dependents_iff.1 (by decide +kernel), Graph.mem_dependents_iff.1 (by decide +kernel)⟩

/-- `1#0` requires `2#0` and is listed before it. -/
theorem straddled_inverts : straddled.Reachable ∧ straddled.graph.contains ⟨0, 0⟩ = true ∧
    ∃ gone g', Graph.remove ⟨0, 0⟩ straddled.graph = .ok gone g' ∧ ⟨2, 0⟩ ∈ gone ∧ ⟨1, 0⟩ ∈ gone ∧
      straddled.graph.IsRequiredParent ⟨2, 0⟩ ⟨1, 0⟩ ∧ ¬ [⟨2, 0⟩, ⟨1, 0⟩].Sublist gone ∧ [⟨1, 0⟩, ⟨2, 0⟩].Sublist gone :=
  let ⟨g', h⟩ := straddled_removes
  ⟨straddled_reachable, by decide +kernel, _, g', h, by decide, by decide, straddled_requires.1, by decide, by decide⟩

/-- All ways to `2#0` are later than one to `1#0`, and `3#0` requires nobody else. -/
theorem reachable_remove_precedes_straddled : ∃ gone g', Graph.remove ⟨0, 0⟩ straddled.graph = .ok gone g' ∧
    (¬ ∃ way, straddled.graph.Descends ⟨0, 0⟩ way ⟨2, 0⟩ ∧
      ∀ {other}, straddled.graph.Descends ⟨0, 0⟩ other ⟨1, 0⟩ → Earlier way other) ∧
    [⟨2, 0⟩, ⟨3, 0⟩].Sublist gone := by
  have hthere : straddled.graph.contains ⟨0, 0⟩ = true := by decide +kernel
  obtain ⟨gone, g', h, -, -, hprecedes⟩ := reachable_remove_precedes straddled_reachable hthere
  obtain ⟨after, hremoves⟩ := straddled_removes
  obtain ⟨rfl, rfl⟩ := EStateM.Result.ok.inj (hremoves.symm.trans h)
  have hinverted : ¬ [(⟨2, 0⟩ : EntityId), ⟨1, 0⟩].Sublist [⟨0, 0⟩, ⟨1, 0⟩, ⟨2, 0⟩, ⟨3, 0⟩] := by decide
  have honly : ∀ other ∈ [(⟨0, 0⟩ : EntityId), ⟨1, 0⟩, ⟨2, 0⟩, ⟨3, 0⟩],
      ⟨3, 0⟩ ∈ straddled.graph.dependents other → other = ⟨2, 0⟩ := by decide +kernel
  refine ⟨_, after, h, fun hway => hinverted ((hprecedes _ _ (by decide) straddled_requires.1).1.2 hway),
    (hprecedes _ _ (by decide) straddled_requires.2).2 fun other hother hstep => ?_⟩
  exact honly other hother (Graph.mem_dependents_iff.2 hstep)

end Builder
end Reconciliation
