import Mathlib
import Reconciliation.Proofs.Checking
import Reconciliation.Proofs.Coverage
import Reconciliation.Proofs.Keys
/-!
# What natural keys tell apart

A natural key is text: what the key attributes say, joined by slashes.  Equal values give equal keys.  The other way
round, a text does not say of itself where an attribute ends, whether it was a number or a word, and at which entity it
points; keys tell two entities apart as far as these are known otherwise.

* Two values that are both words, or both refer to entities of one kind, are what they say.  Values of any depth are read
  off their text by brackets and commas, when the words in them have none and cannot be taken for a number, a truth value
  or null (`Value.Legible`, `Value.eq_of_render`).
* Joined texts are taken apart at the right slashes when it is known how many slashes each of them has.  One may be left
  open, since the sum is known (`eq_of_intercalate`).
-/
namespace Reconciliation

/-! ## Texts that are joined -/

section Joined

variable {ι α : Type} [DecidableEq α] {c : α} {a b u v : List α}

theorem append_cons_cancel (h : a ++ c :: u = b ++ c :: v) (hcount : a.count c = b.count c) : a = b ∧ u = v := by
  rcases List.append_eq_append_iff.1 h with ⟨m, rfl, hm⟩ | ⟨m, rfl, hm⟩
  all_goals
    cases m with
    | nil => simpa [eq_comm] using hm
    | cons x m =>
      obtain ⟨rfl, -⟩ := List.cons.inj hm
      simp at hcount

theorem count_intercalate : ∀ {l : List (List α)}, l ≠ [] →
    ([c].intercalate l).count c + 1 = (l.map (List.count c)).sum + l.length
  | [], h => absurd rfl h
  | [a], _ => by simp
  | a :: b :: l, _ => by
    have ih := count_intercalate (List.cons_ne_nil b l)
    rw [List.intercalate_cons_cons, List.count_append, List.count_append, List.count_singleton_self]
    simp only [List.map_cons, List.sum_cons, List.length_cons] at ih ⊢
    omega

/-- Texts with equally many separators, one by one, are told apart by what they are joined to. -/
theorem eq_of_intercalate_of_count {f g : ι → List α} : ∀ {l : List ι}, (∀ n ∈ l, (f n).count c = (g n).count c) →
    [c].intercalate (l.map f) = [c].intercalate (l.map g) → ∀ n ∈ l, f n = g n
  | [], _, _ => fun n hn => absurd hn List.not_mem_nil
  | [m], _, h => fun n hn => by
    rw [List.mem_singleton.1 hn]
    simpa using h
  | m :: m' :: l, hcount, h => by
    simp only [List.map_cons, List.intercalate_cons_cons, List.append_assoc, List.singleton_append] at h
    obtain ⟨hm, hrest⟩ := append_cons_cancel h (hcount m List.mem_cons_self)
    have ih := eq_of_intercalate_of_count (fun n hn => hcount n (List.mem_cons_of_mem m hn)) hrest
    exact List.forall_mem_cons.2 ⟨hm, ih⟩

theorem count_le_of_intercalate {f g : ι → List α} {l : List ι} {m : ι}
    (h : [c].intercalate (l.map f) = [c].intercalate (l.map g))
    (hcount : ∀ n ∈ l, n ≠ m → (f n).count c = (g n).count c) (hm : m ∈ l) : (g m).count c ≤ (f m).count c := by
  by_contra hlt
  have hl : ∀ e : ι → List α, l.map e ≠ [] := fun e hnil => List.ne_nil_of_mem hm (List.map_eq_nil_iff.1 hnil)
  have hsum : (l.map fun n => (f n).count c).sum < (l.map fun n => (g n).count c).sum := by
    refine List.sum_lt_sum _ _ (fun n hn => ?_) ⟨m, hm, Nat.lt_of_not_le hlt⟩
    by_cases heq : n = m
    · exact heq ▸ Nat.le_of_not_le hlt
    · exact Nat.le_of_eq (hcount n hn heq)
  have hf := count_intercalate (c := c) (hl f)
  have hg := count_intercalate (c := c) (hl g)
  simp only [List.map_map, List.length_map, Function.comp_def] at hf hg
  rw [h] at hf
  omega

/-- **Joined texts are told apart** when all but one of them are known to have equally many separators. -/
theorem eq_of_intercalate {f g : ι → List α} {l : List ι} (m : ι)
    (hcount : ∀ n ∈ l, n ≠ m → (f n).count c = (g n).count c)
    (h : [c].intercalate (l.map f) = [c].intercalate (l.map g)) : ∀ n ∈ l, f n = g n := by
  refine eq_of_intercalate_of_count (fun n hn => ?_) h
  by_cases heq : n = m
  · subst heq
    exact Nat.le_antisymm (count_le_of_intercalate h.symm (fun k hk hne => (hcount k hk hne).symm) hn)
      (count_le_of_intercalate h hcount hn)
  · exact hcount n hn heq

end Joined

namespace Value

/-! ## Words -/

/-- What the words in a value are: text, or references to entities of one kind. -/
inductive Wording
  | texts
  | references (kind : Kind)

def Wording.word : Wording → String → Value
  | .texts, s => .text s
  | .references kind, s => .ref ⟨kind, s⟩

/-- A text that does not break off inside a list. -/
structure Unbroken (s : String) : Prop where
  nonempty : s ≠ ""
  plain : ∀ c ∈ s.toList, c ≠ ',' ∧ c ≠ '[' ∧ c ≠ ']'

/-- **A word**: a text without commas and brackets that no number, truth value or null is written as. -/
structure IsWord (s : String) : Prop extends Unbroken s where
  not_null : s ≠ Value.null.render
  not_bool : ∀ b, s ≠ (Value.bool b).render
  not_int : ∀ i, s ≠ (Value.int i).render

mutual
/-- **A value that can be read off its text** by whoever knows what the words in it are. -/
def Legible (w : Wording) : Value → Prop
  | .null => True
  | .bool _ => True
  | .int _ => True
  | .text s => w = .texts ∧ IsWord s
  | .ref key => w = .references key.kind ∧ IsWord key.text
  | .list items => LegibleAll w items
def LegibleAll (w : Wording) : List Value → Prop
  | [] => True
  | v :: vs => Legible w v ∧ LegibleAll w vs
end

/-- **Two values that their texts tell apart**: they are the same, both are text, both refer to entities of one kind, or
both can be read off. -/
inductive Comparable : Value → Value → Prop
  | same (v : Value) : Comparable v v
  | texts (s s' : String) : Comparable (.text s) (.text s')
  | references {k k' : NaturalKey} (h : k.kind = k'.kind) : Comparable (.ref k) (.ref k')
  | legible {w : Wording} {v v' : Value} (h : v.Legible w) (h' : v'.Legible w) : Comparable v v'

def IsList : Value → Prop
  | .list _ => True
  | _ => False

variable {w : Wording} {v v' : Value} {r r' : List Char}

/-- Reads a value that is not a list. -/
def Wording.read (w : Wording) (s : String) : Value :=
  if s = "null" then .null
  else if s = "true" then .bool true
  else if s = "false" then .bool false
  else match (s.toInt?.bind int64?).filter fun i => (Value.int i).render = s with
    | some i => .int i
    | none => w.word s

theorem render_int (i : Int64) : (Value.int i).render = i.toInt.repr := by rw [render, Int.toString_eq_repr]

theorem mem_render_int {i : Int64} {c : Char} (h : c ∈ (Value.int i).render.toList) : c.isDigit = true ∨ c = '-' := by
  have hdigit : ∀ n : Nat, c ∈ n.repr.toList → c.isDigit = true := fun n hn =>
    Nat.isDigit_of_mem_toDigits (by decide) (by decide) (Nat.toList_repr ▸ hn)
  rw [render_int, Int.repr_eq_if] at h
  split at h
  · exact .inl (hdigit _ h)
  · rw [String.toList_append] at h
    rcases List.mem_append.1 h with h | h
    · exact .inr (by simpa using h)
    · exact .inl (hdigit _ h)

theorem read_int (w : Wording) (i : Int64) : w.read (Value.int i).render = .int i := by
  have hletter : ∀ {s : String} (c : Char), c ∈ s.toList → c.isDigit = false → c ≠ '-' → (Value.int i).render ≠ s :=
    fun c hc hdigit hdash h => by
      rcases mem_render_int (h ▸ hc) with hd | hd
      · exact absurd (hdigit.symm.trans hd) (by decide)
      · exact hdash hd
  rw [Wording.read, if_neg (hletter 'n' (by simp) (by decide) (by decide)),
    if_neg (hletter 't' (by simp) (by decide) (by decide)), if_neg (hletter 'f' (by simp) (by decide) (by decide)),
    render_int, Int.toInt?_repr, Option.bind_some, int64?_toInt, Option.filter_some_pos (by simp [render_int])]

theorem read_word {s : String} (hs : IsWord s) : w.read s = w.word s := by
  have hint : (s.toInt?.bind int64?).filter (fun i => (Value.int i).render = s) = none :=
    Option.filter_eq_none_iff.2 fun i _ h => hs.not_int i (by simpa [eq_comm] using h)
  have htrue : s ≠ "true" := hs.not_bool true
  have hfalse : s ≠ "false" := hs.not_bool false
  have hnull : s ≠ "null" := hs.not_null
  rw [Wording.read, if_neg hnull, if_neg htrue, if_neg hfalse, hint]

theorem Legible.read (h : v.Legible w) (hv : ¬ v.IsList) : w.read v.render = v := by
  cases v with
  | null => rfl
  | bool b => cases b <;> rfl
  | int i => exact read_int w i
  | text s =>
    obtain ⟨rfl, hs⟩ := h
    exact read_word hs
  | ref key =>
    obtain ⟨rfl, hs⟩ := h
    exact read_word hs
  | list items => exact absurd trivial hv

theorem unbroken_int (i : Int64) : Unbroken (Value.int i).render where
  nonempty h := by
    rw [render_int, Int.repr_eq_if] at h
    split at h
    · exact Nat.repr_ne_empty h
    · simp at h
  plain c hc := by
    rcases mem_render_int hc with hd | rfl
    · refine ⟨?_, ?_, ?_⟩
      all_goals
        rintro rfl
        exact absurd hd (by decide)
    · decide

theorem Legible.unbroken (h : v.Legible w) (hv : ¬ v.IsList) : Unbroken v.render := by
  cases v with
  | null => exact ⟨by simp [render], by simp [render]⟩
  | bool b => cases b <;> exact ⟨by simp [render], by simp [render]⟩
  | int i => exact unbroken_int i
  | text s => exact h.2.toUnbroken
  | ref key => exact h.2.toUnbroken
  | list items => exact absurd trivial hv

/-! ## Reading values off their text -/

def inWord (c : Char) : Bool := c ≠ ',' && c ≠ ']'

/-- What follows a value in a text: nothing, or what separates it from the next value or ends its list. -/
def Follows (r : List Char) : Prop := r.takeWhile inWord = []

/-- The values of a list, each after a separator. -/
def spelled (items : List Value) : List Char := items.flatMap fun v => ',' :: ' ' :: v.render.toList

theorem renderAll_cons : ∀ (v : Value) (vs : List Value),
    (renderAll (v :: vs)).toList = v.render.toList ++ spelled vs
  | v, [] => by simp [renderAll, spelled]
  | v, v' :: vs => by
    have ih := renderAll_cons v' vs
    simp only [renderAll, String.toList_append, ih, spelled, List.flatMap_cons]
    simp

theorem render_list (items : List Value) :
    (Value.list items).render.toList = '[' :: ((renderAll items).toList ++ [']']) := by
  simp [render, String.toList_append]

theorem follows_spelled (items : List Value) (r : List Char) : Follows (spelled items ++ ']' :: r) := by
  cases items <;> simp [Follows, spelled, inWord]

theorem Unbroken.takeWhile {s : String} (hs : Unbroken s) (hr : Follows r) :
    (s.toList ++ r).takeWhile inWord = s.toList := by
  rw [List.takeWhile_append_of_pos fun c hc => by simp [inWord, hs.plain c hc], hr, List.append_nil]

theorem Unbroken.exists_cons {s : String} (hs : Unbroken s) : ∃ c cs, s.toList = c :: cs ∧ c ≠ '[' ∧ c ≠ ']' := by
  cases hl : s.toList with
  | nil => exact absurd (String.toList_eq_nil_iff.1 hl) hs.nonempty
  | cons c cs =>
    obtain ⟨-, hopen, hclose⟩ := hs.plain c (hl ▸ List.mem_cons_self)
    exact ⟨c, cs, rfl, hopen, hclose⟩

/-- The text of a value does not begin with the end of a list. -/
theorem Legible.exists_cons (h : v.Legible w) : ∃ c cs, v.render.toList = c :: cs ∧ c ≠ ']' ∧ (c = '[' ↔ v.IsList) := by
  by_cases hv : v.IsList
  · cases v with
    | list items => exact ⟨'[', _, render_list items, by decide, iff_of_true rfl trivial⟩
    | _ => exact hv.elim
  · obtain ⟨c, cs, hc, hopen, hclose⟩ := (h.unbroken hv).exists_cons
    exact ⟨c, cs, hc, hclose, iff_of_false hopen hv⟩

theorem Legible.isList_iff (h : v.Legible w) (h' : v'.Legible w)
    (heq : v.render.toList ++ r = v'.render.toList ++ r') : v.IsList ↔ v'.IsList := by
  obtain ⟨c, cs, hc, -, hopen⟩ := h.exists_cons
  obtain ⟨c', cs', hc', -, hopen'⟩ := h'.exists_cons
  rw [hc, hc', List.cons_append, List.cons_append] at heq
  rw [← hopen, ← hopen', (List.cons.inj heq).1]

theorem Legible.cancel_of_not_isList (h : v.Legible w) (h' : v'.Legible w) (hr : Follows r) (hr' : Follows r')
    (heq : v.render.toList ++ r = v'.render.toList ++ r') (hv : ¬ v.IsList) : v = v' ∧ r = r' := by
  have hv' := mt (h.isList_iff h' heq).2 hv
  have hword : v.render.toList = v'.render.toList := by
    rw [← (h.unbroken hv).takeWhile hr, heq, (h'.unbroken hv').takeWhile hr']
  refine ⟨?_, ?_⟩
  · rw [← h.read hv, String.toList_inj.1 hword, h'.read hv']
  · rw [hword] at heq
    exact List.append_cancel_left heq

theorem LegibleAll.spelled_eq : ∀ {items items' : List Value}, LegibleAll w items → LegibleAll w items' →
    (renderAll items).toList ++ ']' :: r = (renderAll items').toList ++ ']' :: r' →
    spelled items ++ ']' :: r = spelled items' ++ ']' :: r'
  | [], [], _, _, heq => heq
  | [], v' :: vs', _, h', heq => by
    obtain ⟨c, cs, hc, hne, -⟩ := h'.1.exists_cons
    rw [renderAll_cons, hc] at heq
    exact absurd (List.cons.inj heq).1.symm hne
  | v :: vs, [], h, _, heq => by
    obtain ⟨c, cs, hc, hne, -⟩ := h.1.exists_cons
    rw [renderAll_cons, hc] at heq
    exact absurd (List.cons.inj heq).1 hne
  | v :: vs, v' :: vs', _, _, heq => by
    rw [renderAll_cons, renderAll_cons] at heq
    exact congrArg (fun t => ',' :: ' ' :: t) heq

mutual
/-- **A value is read off a text that begins with it**, and what is left is what follows it. -/
theorem Legible.cancel : ∀ {v v' : Value} {r r' : List Char}, v.Legible w → v'.Legible w → Follows r → Follows r' →
    v.render.toList ++ r = v'.render.toList ++ r' → v = v' ∧ r = r'
  | .list items, v', r, r', h, h', hr, hr', heq => by
    cases v' with
    | list items' =>
      rw [render_list, render_list] at heq
      simp only [List.cons_append, List.append_assoc, List.nil_append, List.cons.injEq, true_and] at heq
      obtain ⟨rfl, rfl⟩ := LegibleAll.cancel h h' (LegibleAll.spelled_eq h h' heq)
      exact ⟨rfl, rfl⟩
    | _ => exact absurd ((Legible.isList_iff h h' heq).1 trivial) id
  | .null, _, _, _, h, h', hr, hr', heq => h.cancel_of_not_isList h' hr hr' heq id
  | .bool _, _, _, _, h, h', hr, hr', heq => h.cancel_of_not_isList h' hr hr' heq id
  | .int _, _, _, _, h, h', hr, hr', heq => h.cancel_of_not_isList h' hr hr' heq id
  | .text _, _, _, _, h, h', hr, hr', heq => Legible.cancel_of_not_isList h h' hr hr' heq id
  | .ref _, _, _, _, h, h', hr, hr', heq => Legible.cancel_of_not_isList h h' hr hr' heq id
theorem LegibleAll.cancel : ∀ {items items' : List Value} {r r' : List Char}, LegibleAll w items → LegibleAll w items' →
    spelled items ++ ']' :: r = spelled items' ++ ']' :: r' → items = items' ∧ r = r'
  | [], [], _, _, _, _, heq => ⟨rfl, (List.cons.inj heq).2⟩
  | [], _ :: _, _, _, _, _, heq => absurd (List.cons.inj heq).1 (by decide)
  | _ :: _, [], _, _, _, _, heq => absurd (List.cons.inj heq).1 (by decide)
  | v :: vs, v' :: vs', r, r', h, h', heq => by
    simp only [spelled, List.flatMap_cons, List.cons_append, List.append_assoc, List.cons.injEq, true_and] at heq
    obtain ⟨rfl, hrest⟩ := Legible.cancel h.1 h'.1 (follows_spelled vs r) (follows_spelled vs' r') heq
    obtain ⟨rfl, rfl⟩ := LegibleAll.cancel h.2 h'.2 hrest
    exact ⟨rfl, rfl⟩
end

theorem Comparable.eq_of_render (h : Comparable v v') (heq : v.render = v'.render) : v = v' := by
  cases h with
  | same => rfl
  | texts s s' => exact congrArg Value.text heq
  | @references k k' hkind =>
    obtain ⟨kind, s⟩ := k
    obtain ⟨kind', s'⟩ := k'
    obtain rfl : kind = kind' := hkind
    obtain rfl : s = s' := heq
    rfl
  | legible h h' =>
    have hend : Follows [] := rfl
    exact (Legible.cancel h h' hend hend (by rw [heq])).1

end Value

/-! ## Keys and the values that they are made of -/

def Value.slashes (v : Value) : Nat := v.render.toList.count '/'

namespace Schema

variable {s : Schema} {e d : Entity}

/-- Two entities say the same in every key attribute. -/
def SameKeyValues (s : Schema) (e d : Entity) : Prop := ∀ a ∈ s.keyAttributes e.kind, e.valueOf a = d.valueOf a

instance : Decidable (s.SameKeyValues e d) :=
  inferInstanceAs (Decidable (∀ a ∈ s.keyAttributes e.kind, e.valueOf a = d.valueOf a))

/-- **The natural key tells two entities apart**: in every key attribute their values are comparable, and all of these
but one are known to have equally many slashes. -/
structure KeysCompare (s : Schema) (e d : Entity) : Prop where
  comparable : ∀ a ∈ s.keyAttributes e.kind, (e.valueOf a).Comparable (d.valueOf a)
  aligned : ∃ m, ∀ a ∈ s.keyAttributes e.kind, a ≠ m → (e.valueOf a).slashes = (d.valueOf a).slashes

/-- Two entities of one kind have one natural key.  They say the same in every key attribute as far as it tells. -/
structure ShareKey (s : Schema) (e d : Entity) : Prop where
  kind : d.kind = e.kind
  keyed : (s.naturalKey? e).isSome
  key : s.naturalKey? d = s.naturalKey? e
  values : s.KeysCompare e d → s.SameKeyValues e d

theorem naturalKey?_isSome (h : s.keyAttributes e.kind ≠ []) : (s.naturalKey? e).isSome := by
  rw [naturalKey?_eq_some h]
  rfl

theorem SameKeyValues.naturalKey?_eq (h : s.SameKeyValues e d) (hkind : d.kind = e.kind) :
    s.naturalKey? d = s.naturalKey? e := by
  by_cases hempty : s.keyAttributes e.kind = []
  · rw [naturalKey?_eq_none hempty, naturalKey?_eq_none (hkind ▸ hempty)]
  · rw [naturalKey?_eq_some hempty, naturalKey?_eq_some (hkind ▸ hempty), hkind,
      List.map_congr_left fun a ha => congrArg Value.render (h a ha)]

/-- **Equal keys come from equal values**, as far as the key tells. -/
theorem KeysCompare.sameKeyValues (h : s.KeysCompare e d) (hkind : d.kind = e.kind)
    (hkey : s.naturalKey? d = s.naturalKey? e) : s.SameKeyValues e d := by
  intro a ha
  obtain ⟨m, haligned⟩ := h.aligned
  have hkeyed := List.ne_nil_of_mem ha
  rw [naturalKey?_eq_some hkeyed, naturalKey?_eq_some (hkind ▸ hkeyed), hkind, Option.some.injEq,
    NaturalKey.mk.injEq, ← String.toList_inj, String.toList_intercalate, String.toList_intercalate, List.map_map,
    List.map_map] at hkey
  have htexts := eq_of_intercalate m haligned hkey.2.symm a ha
  exact (h.comparable a ha).eq_of_render (String.toList_inj.1 htexts)

theorem shareKey_of_key (hkind : d.kind = e.kind) (hkeyed : (s.naturalKey? e).isSome)
    (hkey : s.naturalKey? d = s.naturalKey? e) : s.ShareKey e d :=
  ⟨hkind, hkeyed, hkey, fun h => h.sameKeyValues hkind hkey⟩

end Schema

namespace Graph

variable {g g' : Graph} {kind : Kind} {links : List Link} {moving : Option EntityId} {cause : StoreError}
  {data : Entity} {k : NaturalKey} {x : EntityId}

theorem WellKeyed.shareKey (hx : g.WellKeyed x) (hk : g.schema.naturalKey? data = some k) (h : g.resolve k = some x) :
    ∃ d, g.entity x = .ok d ∧ g.schema.ShareKey data d := by
  obtain ⟨d, hd, hdk⟩ := (hx k).1 h
  have hkind : d.kind = data.kind := (Pass.kind_of_naturalKey? hdk).symm.trans (Pass.kind_of_naturalKey? hk)
  exact ⟨d, hd, Schema.shareKey_of_key hkind (by rw [hk]; rfl) (hdk.trans hk.symm)⟩

/-! ## Duplicates -/

/-- **Data is refused as a duplicate of an entity**, when it is added or when it would take the place of other data. -/
inductive Duplicates (g : Graph) (data : Entity) (x : EntityId) : Prop
  | add {links : List Link} {k : NaturalKey} {g' : Graph} (h : Graph.add data links g = .error (.duplicateKey k x) g')
  | modify {id : EntityId} {change : Entity → Entity} {old : Entity} {k : NaturalKey} {g' : Graph}
      (hold : g.entity id = .ok old) (hnew : change old = data)
      (h : Graph.modify id change g = .error (.duplicateKey k x) g')

theorem checkLinks_ne_duplicateKey (h : g.checkLinks kind links moving = .error cause) : cause ≠ .duplicateKey k x := by
  rintro rfl
  rcases checkLinks_error h with hcause | hlink | ⟨_, -, -, hcause⟩
  · cases hcause
  · exact hlink
  · cases hcause

theorem checkKey_duplicate {key : Option NaturalKey} {holder : Option EntityId}
    (h : g.checkKey key holder = .error (.duplicateKey k x)) : key = some k ∧ g.resolve k = some x := by
  obtain ⟨k', owner, hkey, howner, -, hcause⟩ := checkKey_refused h
  obtain ⟨rfl, rfl⟩ := StoreError.duplicateKey.inj hcause
  exact ⟨hkey, howner⟩

theorem add_duplicate (h : add data links g = .error (.duplicateKey k x) g') :
    g.schema.naturalKey? data = some k ∧ g.resolve k = some x := by
  rcases (add_error_cases h).2 with hlinks | hkey | hindex
  · exact absurd rfl (checkLinks_ne_duplicateKey hlinks)
  · exact checkKey_duplicate hkey
  · cases (checkIndex_error_iff.1 hindex).2

theorem modify_duplicate {id : EntityId} {change : Entity → Entity} {old : Entity} (hold : g.entity id = .ok old)
    (h : modify id change g = .error (.duplicateKey k x) g') :
    g.schema.naturalKey? (change old) = some k ∧ g.resolve k = some x := by
  rcases modify_fails h with ⟨_, hcause⟩ | ⟨_, _, hcause⟩ | ⟨old', _, _, hold', hk, howner, hcause⟩
  · cases hcause
  · cases hcause
  · obtain rfl : old = old' := Except.ok.inj (hold.symm.trans hold')
    obtain ⟨rfl, rfl⟩ := StoreError.duplicateKey.inj hcause
    exact ⟨hk, howner⟩

theorem Duplicates.shareKey (h : g.Duplicates data x) (hx : g.WellKeyed x) :
    ∃ d, g.entity x = .ok d ∧ g.schema.ShareKey data d := by
  cases h with
  | add h =>
    obtain ⟨hk, howner⟩ := add_duplicate h
    exact hx.shareKey hk howner
  | modify hold hnew h =>
    obtain ⟨hk, howner⟩ := modify_duplicate hold h
    exact hx.shareKey (hnew ▸ hk) howner

end Graph

/-! ## Counterparts -/

namespace Pass

open Planning

variable {p : Pass} {s s' : Progress} {t i j : EntityId} {data : Entity} {k : NaturalKey} {r : Option EntityId}

/-- **An incoming root is matched with a target entity** by its natural key. -/
def MatchesByKey (p : Pass) (data : Entity) (t : EntityId) : Prop :=
  (p.target.schema.naturalKey? data).isSome ∧ ∃ s s', p.findRoot data s = .ok (some t) s'

/-- **A target root is paired with an incoming entity** by its natural key: pairing it decides about the other one. -/
def PairsByKey (p : Pass) (data : Entity) (t i : EntityId) : Prop :=
  p.target.entity t = .ok data ∧ (p.target.schema.naturalKey? data).isSome ∧
    ∃ s r s', p.pairRoot t s = .ok r s' ∧ s.incomingFates.contains i = false ∧ s'.incomingFates.contains i = true

/-- Among the incoming entities nobody but these is decided about. -/
def DecidesOnly (among : EntityId → Prop) (s s' : Progress) : Prop :=
  ∀ j, ¬ among j → s'.incomingFates.contains j = s.incomingFates.contains j

instance (among : EntityId → Prop) : Std.Refl (DecidesOnly among) := ⟨fun _ _ _ => rfl⟩

instance (among : EntityId → Prop) : IsTrans Progress (DecidesOnly among) :=
  ⟨fun _ _ _ h h' j hj => (h' j hj).trans (h j hj)⟩

theorem decidesOnly_insert {f : IncomingFate} (h : s'.incomingFates = s.incomingFates.insert i f) :
    DecidesOnly (· = i) s s' := fun j hj => by
  rw [h, Bool.eq_iff_iff, SortedMap.contains_insert_iff, or_iff_right hj]

/-- A decision that is written down, and then an answer. -/
theorem decidesOnly_then {among : EntityId → Prop} {x : Planning Unit}
    (h : ∀ {u s'}, x s = .ok u s' → DecidesOnly among s s') :
    Leads (DecidesOnly among) (x >>= fun _ => pure r) s (fun _ _ => True) fun _ => True :=
  .bind (P := fun _ _ => True) (.of_success fun hrun => ⟨h hrun, trivial⟩) fun _ _ _ _ => .pure trivial

theorem unpaired_decidesOnly : Leads (DecidesOnly fun _ => False) (p.unpaired t) s (fun _ _ => True) fun _ => True := by
  refine .looking acceptsTarget_ok_iff.1 fun accepted _ => ?_
  cases accepted with
  | true =>
    refine decidesOnly_then fun hwrite => ?_
    obtain ⟨-, -, rfl⟩ := remove_none_ok_iff.1 hwrite
    exact fun _ _ => rfl
  | false =>
    refine decidesOnly_then fun hwrite => ?_
    obtain ⟨-, rfl⟩ := keep_none_ok_iff.1 hwrite
    exact fun _ _ => rfl

theorem settlePair_decidesOnly {links : Option PlannedLinks} :
    Leads (DecidesOnly (· = i)) (p.settlePair t i links) s (fun _ _ => True) fun _ => True := by
  refine .looking acceptsTarget_ok_iff.1 fun targetAccepted _ => .looking acceptsIncoming_ok_iff.1 fun accepted _ => ?_
  cases accepted with
  | true =>
    refine decidesOnly_then fun hwrite => ?_
    obtain ⟨-, -, -, rfl⟩ := relabel_ok_iff.1 hwrite
    exact decidesOnly_insert rfl
  | false =>
    cases targetAccepted with
    | true =>
      refine decidesOnly_then fun hwrite => ?_
      obtain ⟨-, -, -, rfl⟩ := remove_some_ok_iff.1 hwrite
      exact decidesOnly_insert rfl
    | false =>
      refine decidesOnly_then fun hwrite => ?_
      obtain ⟨-, -, rfl⟩ := keep_some_ok_iff.1 hwrite
      exact decidesOnly_insert rfl

theorem MatchesByKey.shareKey (h : p.MatchesByKey data t) (ht : p.target.WellKeyed t) :
    ∃ d, p.target.entity t = .ok d ∧ p.target.schema.ShareKey data d := by
  obtain ⟨hkeyed, s, s', h⟩ := h
  obtain ⟨k, hk⟩ := Option.isSome_iff_exists.1 hkeyed
  rw [findRoot, hk] at h
  exact ht.shareKey hk (EStateM.Result.ok.inj h).1

theorem PairsByKey.shareKey (h : p.PairsByKey data t i) (hschema : p.target.schema = p.incoming.schema)
    (hi : p.incoming.WellKeyed i) : ∃ d, p.incoming.entity i = .ok d ∧ p.target.schema.ShareKey data d := by
  obtain ⟨hdata, hkeyed, s, r, s', h, hfree, hfate⟩ := h
  obtain ⟨k, hk⟩ := Option.isSome_iff_exists.1 hkeyed
  obtain ⟨data', s₁, hlook, hrun⟩ := bind_ok_iff.1 h
  obtain ⟨hdata', hsame⟩ := lookup_ok_iff.1 hlook
  obtain rfl : data = data' := Except.ok.inj (hdata.symm.trans hdata')
  rw [hsame, get_bind, hk] at hrun
  obtain ⟨found, s₂, hfound, hsettle⟩ := bind_ok_iff.1 hrun
  obtain ⟨rfl, rfl⟩ := EStateM.Result.ok.inj hfound
  have howner : (p.incoming.resolve k).filter (fun i => !s.incomingFates.contains i) = some i := by
    cases hf : (p.incoming.resolve k).filter fun i => !s.incomingFates.contains i with
    | none =>
      rw [hf] at hsettle
      have hsame := (unpaired_decidesOnly.ok hsettle).1 i id
      rw [hsame, hfree] at hfate
      cases hfate
    | some j =>
      rw [hf] at hsettle
      by_contra hne
      have hother : i ≠ j := fun heq => hne (congrArg some heq.symm)
      have hsame := (settlePair_decidesOnly.ok hsettle).1 i hother
      rw [hsame, hfree] at hfate
      cases hfate
  rw [hschema] at hk ⊢
  exact hi.shareKey hk (Option.filter_eq_some_iff.1 howner).1

end Pass

/-- **What natural keys tell apart.**  Equal values in all key attributes give one key, and one key comes from equal values
where these are comparable and no slash can have moved from one text to the next.  So much is shared by what is refused as
a duplicate of an entity, and by what is matched or paired by key, once the look-up of the key is right about the entity
that it names. -/
theorem naturalKeys_tell :
    (∀ (s : Schema) (e d : Entity), d.kind = e.kind → s.keyAttributes e.kind ≠ [] →
      (s.naturalKey? e).isSome ∧ (s.SameKeyValues e d → s.naturalKey? d = s.naturalKey? e) ∧
      (s.KeysCompare e d → (s.naturalKey? d = s.naturalKey? e ↔ s.SameKeyValues e d))) ∧
    (∀ (g : Graph) (data : Entity) (x : EntityId), g.WellKeyed x → g.Duplicates data x →
      ∃ d, g.entity x = .ok d ∧ g.schema.ShareKey data d) ∧
    (∀ (p : Pass) (data : Entity) (t : EntityId), p.target.WellKeyed t → p.MatchesByKey data t →
      ∃ d, p.target.entity t = .ok d ∧ p.target.schema.ShareKey data d) ∧
    (∀ (p : Pass) (data : Entity) (t i : EntityId), p.target.schema = p.incoming.schema → p.incoming.WellKeyed i →
      p.PairsByKey data t i → ∃ d, p.incoming.entity i = .ok d ∧ p.target.schema.ShareKey data d) := by
  refine ⟨fun s e d hkind hkeyed => ⟨Schema.naturalKey?_isSome hkeyed, fun h => h.naturalKey?_eq hkind, fun h => ?_⟩,
    fun g data x hx h => h.shareKey hx, fun p data t ht h => h.shareKey ht, fun p data t i hschema hi h =>
      h.shareKey hschema hi⟩
  exact ⟨h.sameKeyValues hkind, fun hsame => hsame.naturalKey?_eq hkind⟩

/-- One kind, with the key attributes "series" and "number". -/
def volumes : Schema := ⟨#[⟨"Volume", ["series", "number"], []⟩]⟩

def volume (source : Source) (series number : Value) : Entity :=
  ((Entity.new 0 source).set "series" series).set "number" number

/-- A graph of one volume. -/
def shelf (source : Source) : Graph :=
  ((Graph.empty volumes).insertEntity (volume source (.text "a/b") (.int 7)) []).1

theorem volumes_compare : volumes.KeysCompare (volume "x" (.text "a/b") (.int 7)) (volume "y" (.text "c") (.int 7)) where
  comparable a ha := by
    rcases List.mem_cons.1 ha with rfl | ha
    · exact .texts "a/b" "c"
    · obtain rfl := List.mem_singleton.1 ha
      exact .same (.int 7)
  aligned := ⟨"series", by decide +kernel⟩

def shelves : Pass := ⟨shelf "x", shelf "y", fun _ => true⟩

theorem shelves_match : shelves.MatchesByKey (volume "y" (.text "a/b") (.int 7)) ⟨0, 0⟩ :=
  ⟨rfl, .start, .start, rfl⟩

theorem shelves_pair : shelves.PairsByKey (volume "x" (.text "a/b") (.int 7)) ⟨0, 0⟩ ⟨0, 0⟩ := by
  have hrun : succeedsWith (shelves.pairRoot ⟨0, 0⟩ .start) (fun _ s' => s'.incomingFates.contains ⟨0, 0⟩) = true := by
    decide +kernel
  obtain ⟨r, s', hpair, hfate⟩ := exists_of_succeedsWith hrun
  exact ⟨rfl, rfl, .start, r, s', hpair, rfl, hfate⟩

theorem shelf_refuses : (shelf "x").Duplicates (volume "y" (.text "a/b") (.int 7)) ⟨0, 0⟩ := by
  have hrun : failsWith (Graph.add (volume "y" (.text "a/b") (.int 7)) [] (shelf "x"))
      (· = .duplicateKey ⟨0, "a/b/7"⟩ ⟨0, 0⟩) = true := by decide +kernel
  obtain ⟨cause, g', hadd, hcause⟩ := exists_of_failsWith hrun
  exact .add (of_decide_eq_true hcause ▸ hadd)

/-- Two series have two keys, and what has the key of a volume is refused beside it, and matched and paired with it. -/
theorem shelves_tell :
    volumes.naturalKey? (volume "y" (.text "c") (.int 7)) ≠ volumes.naturalKey? (volume "x" (.text "a/b") (.int 7)) ∧
    (∃ d, (shelf "x").entity ⟨0, 0⟩ = .ok d ∧ volumes.ShareKey (volume "y" (.text "a/b") (.int 7)) d) ∧
    (∃ d, shelves.target.entity ⟨0, 0⟩ = .ok d ∧ volumes.ShareKey (volume "y" (.text "a/b") (.int 7)) d) ∧
    (∃ d, shelves.incoming.entity ⟨0, 0⟩ = .ok d ∧ volumes.ShareKey (volume "x" (.text "a/b") (.int 7)) d) := by
  obtain ⟨hkeys, hduplicates, hmatches, hpairs⟩ := naturalKeys_tell
  have htarget : (shelf "x").Consistent := by decide +kernel
  have hincoming : (shelf "y").Consistent := by decide +kernel
  refine ⟨fun heq => ?_, ?_, ?_, ?_⟩
  · obtain ⟨-, -, htell⟩ := hkeys volumes (volume "x" (.text "a/b") (.int 7)) (volume "y" (.text "c") (.int 7)) rfl (by decide)
    exact absurd ((htell volumes_compare).1 heq) (by decide +kernel)
  · exact hduplicates (shelf "x") _ ⟨0, 0⟩ (htarget.wellKeyed _) shelf_refuses
  · exact hmatches shelves _ ⟨0, 0⟩ (htarget.wellKeyed _) shelves_match
  · exact hpairs shelves _ ⟨0, 0⟩ ⟨0, 0⟩ rfl (hincoming.wellKeyed _) shelves_pair

/-- Equal keys need not come from equal values: a slash moves from one text to the next, and a number is written like a
text.  What differs in its key attributes is then refused as a duplicate. -/
theorem volumes_collide :
    let e := volume "x" (.text "a/b") (.int 7)
    let shifted := volume "x" (.text "a") (.text "b/7")
    let worded := volume "x" (.text "a/b") (.text "7")
    (shifted.kind = e.kind ∧ volumes.naturalKey? shifted = volumes.naturalKey? e ∧ ¬ volumes.SameKeyValues e shifted) ∧
    (worded.kind = e.kind ∧ volumes.naturalKey? worded = volumes.naturalKey? e ∧ ¬ volumes.SameKeyValues e worded) ∧
    failsWith (Graph.add shifted [] (shelf "x")) (· = .duplicateKey ⟨0, "a/b/7"⟩ ⟨0, 0⟩) = true := by
  refine ⟨⟨rfl, by decide +kernel, by decide +kernel⟩, ⟨rfl, by decide +kernel, by decide +kernel⟩, by decide +kernel⟩

end Reconciliation
