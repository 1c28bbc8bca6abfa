import Mathlib.Data.List.Sigma
import Mathlib.Tactic.Common

/-!
# Trees of Keyed Children

A tree holds a value in each leaf and children under keys in each inner node. A node without
children is the empty tree, which stands for the absence of anything: to remove a child is to
replace it by the empty tree, and an update never leaves an empty child behind. A location is
the list of the keys that lead to it from the root.

The order of the children is not modelled, and keys are told apart by equality: a program whose
comparison takes different keys for the same uses these trees where it does not, and one whose
nodes carry more than a value, such as a priority, where nothing touches it. `WellFormed` says
that the keys of a node are distinct and that none of its children is empty, at every depth.

## Main results

* `WellFormed.getChild_updateChild_append`: reading above an update sees the update of what
  was there.
* `getImmediateChild_updateChild_of_ne`: **an update changes nothing beside its location.**
* `WellFormed.updateChild`: an update keeps a tree well formed.
* `value?_updateChild`: at each location an update keeps the value or sets it.
-/

namespace FirebaseLogin

/-- A tree with values of type `ν` in its leaves and children under keys of type `κ`. -/
inductive KeyTree (κ ν : Type) where
  | leaf (value : ν)
  | children (entries : List (Σ _ : κ, KeyTree κ ν))

namespace KeyTree

variable {κ ν : Type}

/-- The empty tree. -/
def empty : KeyTree κ ν := .children []

/-- A tree is empty when its root has neither a value nor a child. -/
def isEmpty : KeyTree κ ν → Bool
  | .leaf _ => false
  | .children es => es.isEmpty

/-- The children of the root with their keys. -/
def entries : KeyTree κ ν → List (Σ _ : κ, KeyTree κ ν)
  | .leaf _ => []
  | .children es => es

/-- Only `empty` is empty. -/
theorem isEmpty_iff {t : KeyTree κ ν} : t.isEmpty = true ↔ t = empty := by
  cases t with
  | leaf v => simp [isEmpty, empty]
  | children es => simp [isEmpty, empty]

/-- The value of a leaf. -/
def value? : KeyTree κ ν → Option ν
  | .leaf v => some v
  | .children _ => none

@[simp] theorem value?_empty : (empty : KeyTree κ ν).value? = none :=
  rfl

/-- The keys of every node are distinct, and no child is empty. -/
inductive WellFormed : KeyTree κ ν → Prop
  | leaf (v : ν) : WellFormed (.leaf v)
  | children {es : List (Σ _ : κ, KeyTree κ ν)} : es.NodupKeys →
      (∀ e ∈ es, e.2.isEmpty = false) → (∀ e ∈ es, WellFormed e.2) →
      WellFormed (.children es)

/-- The empty tree is well formed. -/
theorem WellFormed.empty : WellFormed (KeyTree.empty : KeyTree κ ν) :=
  .children (by simp) (by simp) (by simp)

/-- The keys at the root of a well-formed tree are distinct. -/
theorem WellFormed.nodupKeys {t : KeyTree κ ν} (h : t.WellFormed) : t.entries.NodupKeys := by
  cases h with
  | leaf v => simp [entries]
  | children hkeys _ _ => exact hkeys

variable [DecidableEq κ]

/-- The child under a key, empty when there is none. -/
def getImmediateChild (t : KeyTree κ ν) (k : κ) : KeyTree κ ν :=
  (t.entries.dlookup k).getD empty

/-- Replace the child under a key; an empty one is removed. A leaf that gets a child loses
its value. -/
def updateImmediateChild (t : KeyTree κ ν) (k : κ) (n : KeyTree κ ν) : KeyTree κ ν :=
  match t with
  | .leaf v => if n.isEmpty then .leaf v else .children [⟨k, n⟩]
  | .children es => .children (if n.isEmpty then es.kerase k else es.kinsert k n)

/-- The tree at a location. -/
def getChild : KeyTree κ ν → List κ → KeyTree κ ν
  | t, [] => t
  | .leaf _, _ :: _ => empty
  | .children es, k :: p => getChild ((KeyTree.children es).getImmediateChild k) p

/-- Replace the tree at a location. -/
def updateChild : KeyTree κ ν → List κ → KeyTree κ ν → KeyTree κ ν
  | _, [], n => n
  | .leaf v, k :: p, n =>
      if n.isEmpty then .leaf v
      else (KeyTree.leaf v).updateImmediateChild k (updateChild empty p n)
  | .children es, k :: p, n =>
      (KeyTree.children es).updateImmediateChild k
        (updateChild ((KeyTree.children es).getImmediateChild k) p n)

/-! ### One level -/

@[simp] theorem getImmediateChild_leaf (v : ν) (k : κ) :
    (KeyTree.leaf v).getImmediateChild k = empty :=
  rfl

@[simp] theorem getImmediateChild_empty (k : κ) :
    (empty : KeyTree κ ν).getImmediateChild k = empty :=
  rfl

@[simp] theorem updateImmediateChild_empty_empty (k : κ) :
    (empty : KeyTree κ ν).updateImmediateChild k empty = empty :=
  rfl

/-- The other children stay. -/
theorem getImmediateChild_updateImmediateChild_of_ne (t n : KeyTree κ ν) {k k' : κ}
    (h : k' ≠ k) :
    (t.updateImmediateChild k n).getImmediateChild k' = t.getImmediateChild k' := by
  cases t with
  | leaf v =>
      simp only [updateImmediateChild]
      split
      · rfl
      · have hlookup : List.dlookup k' [(⟨k, n⟩ : Σ _ : κ, KeyTree κ ν)] = none := by
          rw [List.dlookup_eq_none]
          simpa using h
        rw [getImmediateChild, entries, hlookup]
        rfl
  | children es =>
      simp only [updateImmediateChild, getImmediateChild, entries]
      split
      · rw [List.dlookup_kerase_ne h]
      · rw [List.dlookup_kinsert_ne h]

/-- The children after an update with a tree that is not empty. -/
theorem entries_updateImmediateChild (t : KeyTree κ ν) (k : κ) {n : KeyTree κ ν}
    (h : n.isEmpty = false) :
    (t.updateImmediateChild k n).entries = t.entries.kinsert k n := by
  cases t with
  | leaf v => simp [updateImmediateChild, entries, h, List.kinsert_def]
  | children es => simp [updateImmediateChild, entries, h]

/-! ### Locations -/

@[simp] theorem getChild_nil (t : KeyTree κ ν) : t.getChild [] = t := by
  cases t <;> rfl

@[simp] theorem updateChild_nil (t n : KeyTree κ ν) : t.updateChild [] n = n := by
  cases t <;> rfl

/-- Nothing is below the empty tree. -/
@[simp] theorem getChild_empty (p : List κ) : (empty : KeyTree κ ν).getChild p = empty := by
  induction p with
  | nil => rfl
  | cons k p ih => exact ih

/-- Reading a location reads its first key and then the rest. -/
theorem getChild_cons (t : KeyTree κ ν) (k : κ) (p : List κ) :
    t.getChild (k :: p) = (t.getImmediateChild k).getChild p := by
  cases t with
  | leaf v => rw [getImmediateChild_leaf, getChild_empty, getChild]
  | children es => rw [getChild]

/-- Removing what is not there changes nothing. -/
theorem updateChild_empty_empty (p : List κ) :
    (empty : KeyTree κ ν).updateChild p empty = empty := by
  induction p with
  | nil => rfl
  | cons k p ih =>
      have hcons : (empty : KeyTree κ ν).updateChild (k :: p) empty =
          (empty : KeyTree κ ν).updateImmediateChild k
            (((empty : KeyTree κ ν).getImmediateChild k).updateChild p empty) := rfl
      rw [hcons, getImmediateChild_empty, ih, updateImmediateChild_empty_empty]

/-- Updating a location updates the child under its first key. -/
theorem updateChild_cons (t n : KeyTree κ ν) (k : κ) (p : List κ) :
    t.updateChild (k :: p) n =
      t.updateImmediateChild k ((t.getImmediateChild k).updateChild p n) := by
  cases t with
  | leaf v =>
      rw [updateChild, getImmediateChild_leaf]
      split
      · rename_i hempty
        rw [isEmpty_iff.mp hempty, updateChild_empty_empty]
        rfl
      · rfl
  | children es => rw [updateChild]

/-- **An update changes nothing beside its location.** -/
theorem getImmediateChild_updateChild_of_ne (t n : KeyTree κ ν) {k k' : κ} (h : k' ≠ k)
    (p : List κ) :
    (t.updateChild (k :: p) n).getImmediateChild k' = t.getImmediateChild k' := by
  rw [updateChild_cons, getImmediateChild_updateImmediateChild_of_ne _ _ h]

/-! ### Updates of well-formed trees -/

namespace WellFormed

variable {t n : KeyTree κ ν}

/-- The children of a well-formed tree are well formed. -/
theorem getImmediateChild (h : t.WellFormed) (k : κ) : (t.getImmediateChild k).WellFormed := by
  cases h with
  | leaf v => exact .empty
  | @children es hkeys hne hwf =>
      rw [KeyTree.getImmediateChild, entries]
      cases hlookup : es.dlookup k with
      | none => exact .empty
      | some n => exact hwf ⟨k, n⟩ (List.of_mem_dlookup hlookup)

/-- The subtrees of a well-formed tree are well formed. -/
theorem getChild (h : t.WellFormed) (p : List κ) : (t.getChild p).WellFormed := by
  induction p generalizing t with
  | nil => rwa [getChild_nil]
  | cons k p ih =>
      rw [getChild_cons]
      exact ih (h.getImmediateChild k)

/-- The replacement of a child keeps a tree well formed. -/
theorem updateImmediateChild (h : t.WellFormed) (k : κ) (hn : n.WellFormed) :
    (t.updateImmediateChild k n).WellFormed := by
  cases hempty : n.isEmpty with
  | true =>
      cases h with
      | leaf v => simpa [KeyTree.updateImmediateChild, hempty] using WellFormed.leaf v
      | @children es hkeys hne hwf =>
          simp only [KeyTree.updateImmediateChild, hempty, if_true]
          have hsub : ∀ e ∈ es.kerase k, e ∈ es := (List.kerase_sublist k es).subset
          exact .children (hkeys.kerase k) (fun e he => hne e (hsub e he))
            fun e he => hwf e (hsub e he)
  | false =>
      have hentries : (t.updateImmediateChild k n) = .children (t.entries.kinsert k n) := by
        rw [← entries_updateImmediateChild t k hempty]
        cases t <;> simp [KeyTree.updateImmediateChild, hempty, entries]
      have hmem : ∀ e ∈ t.entries.kinsert k n, e = ⟨k, n⟩ ∨ e ∈ t.entries := by
        intro e he
        rw [List.kinsert_def, List.mem_cons] at he
        exact he.imp id fun he => (List.kerase_sublist k _).subset he
      rw [hentries]
      refine .children (List.kinsert_nodupKeys k n h.nodupKeys) ?_ ?_
      · intro e he
        rcases hmem e he with rfl | he
        · exact hempty
        · cases h with
          | leaf v => cases he
          | children _ hne _ => exact hne e he
      · intro e he
        rcases hmem e he with rfl | he
        · exact hn
        · cases h with
          | leaf v => cases he
          | children _ _ hwf => exact hwf e he

/-- An update keeps a tree well formed. -/
theorem updateChild (h : t.WellFormed) (p : List κ) (hn : n.WellFormed) :
    (t.updateChild p n).WellFormed := by
  induction p generalizing t with
  | nil => rwa [updateChild_nil]
  | cons k p ih =>
      rw [updateChild_cons]
      exact h.updateImmediateChild k (ih (h.getImmediateChild k))

/-- The child under a key is the one it was replaced by. -/
theorem getImmediateChild_updateImmediateChild (h : t.WellFormed) (k : κ)
    (n : KeyTree κ ν) : (t.updateImmediateChild k n).getImmediateChild k = n := by
  cases hempty : n.isEmpty with
  | true =>
      rw [isEmpty_iff.mp hempty]
      cases h with
      | leaf v => rfl
      | @children es hkeys _ _ =>
          have herase : (KeyTree.children es).updateImmediateChild k KeyTree.empty =
              .children (es.kerase k) := rfl
          rw [herase, KeyTree.getImmediateChild, entries, List.dlookup_kerase k hkeys]
          rfl
  | false =>
      rw [KeyTree.getImmediateChild, entries_updateImmediateChild t k hempty,
        List.dlookup_kinsert]
      rfl

/-- **Reading above an update** sees the update of what was there. -/
theorem getChild_updateChild_append (h : t.WellFormed) (p q : List κ) (n : KeyTree κ ν) :
    (t.updateChild (p ++ q) n).getChild p = (t.getChild p).updateChild q n := by
  induction p generalizing t with
  | nil => simp
  | cons k p ih =>
      rw [List.cons_append, updateChild_cons, getChild_cons, getChild_cons,
        h.getImmediateChild_updateImmediateChild, ih (h.getImmediateChild k)]

end WellFormed

/-! ### The values of a tree -/

/-- A location in two parts. -/
theorem getChild_append (t : KeyTree κ ν) (p q : List κ) :
    t.getChild (p ++ q) = (t.getChild p).getChild q := by
  induction p generalizing t with
  | nil => rw [List.nil_append, getChild_nil]
  | cons k p ih => rw [List.cons_append, getChild_cons, getChild_cons, ih]

/-- An update with a tree that is not empty leaves one. -/
theorem isEmpty_updateChild (t : KeyTree κ ν) (p : List κ) {n : KeyTree κ ν}
    (h : n.isEmpty = false) : (t.updateChild p n).isEmpty = false := by
  induction p generalizing t with
  | nil => rwa [updateChild_nil]
  | cons k p ih =>
      rw [updateChild_cons]
      have hchild := ih (t.getImmediateChild k)
      cases t with
      | leaf v =>
          rw [updateImmediateChild, if_neg (Bool.eq_false_iff.mp hchild), isEmpty,
            List.isEmpty_cons]
      | children es =>
          rw [updateImmediateChild, if_neg (Bool.eq_false_iff.mp hchild), isEmpty,
            List.kinsert_def, List.isEmpty_cons]

/-- A leaf above an update loses its value, unless the update removes. -/
theorem value?_updateChild_cons (t n : KeyTree κ ν) (k : κ) (p : List κ) :
    (t.updateChild (k :: p) n).value? = if n.isEmpty then t.value? else none := by
  cases t with
  | leaf v =>
      rw [updateChild]
      cases hempty : n.isEmpty with
      | true => rfl
      | false =>
          have hchild := isEmpty_updateChild (empty : KeyTree κ ν) p hempty
          rw [if_neg Bool.false_ne_true, updateImmediateChild, if_neg (by simp [hchild])]
          rfl
  | children es =>
      rw [updateChild, updateImmediateChild]
      simp [value?]

/-- **At each location an update keeps the value or sets it**, whatever the tree. -/
theorem value?_updateChild (p q : List κ) (n : KeyTree κ ν) :
    (∀ t : KeyTree κ ν, t.WellFormed →
        ((t.updateChild p n).getChild q).value? = (t.getChild q).value?) ∨
      ∃ v, ∀ t : KeyTree κ ν, t.WellFormed → ((t.updateChild p n).getChild q).value? = v := by
  induction p generalizing q with
  | nil =>
      refine .inr ⟨(n.getChild q).value?, fun t _ => ?_⟩
      rw [updateChild_nil]
  | cons k p ih =>
      cases q with
      | nil =>
          cases hempty : n.isEmpty with
          | true =>
              refine .inl fun t _ => ?_
              rw [getChild_nil, getChild_nil, value?_updateChild_cons, hempty, if_pos rfl]
          | false =>
              refine .inr ⟨none, fun t _ => ?_⟩
              rw [getChild_nil, value?_updateChild_cons, hempty, if_neg Bool.false_ne_true]
      | cons k' q =>
          by_cases hk : k' = k
          · subst hk
            rcases ih q with hkeep | ⟨v, hset⟩
            · refine .inl fun t ht => ?_
              rw [getChild_cons, updateChild_cons, ht.getImmediateChild_updateImmediateChild,
                hkeep _ (ht.getImmediateChild k'), getChild_cons]
            · refine .inr ⟨v, fun t ht => ?_⟩
              rw [getChild_cons, updateChild_cons, ht.getImmediateChild_updateImmediateChild,
                hset _ (ht.getImmediateChild k')]
          · refine .inl fun t _ => ?_
            rw [getChild_cons, getImmediateChild_updateChild_of_ne t n hk, getChild_cons]

namespace WellFormed

variable {t : KeyTree κ ν}

/-- A child that is there is found under its key. -/
theorem getImmediateChild_of_mem {es : List (Σ _ : κ, KeyTree κ ν)} (hkeys : es.NodupKeys)
    {e : Σ _ : κ, KeyTree κ ν} (he : e ∈ es) :
    (KeyTree.children es).getImmediateChild e.1 = e.2 := by
  rw [KeyTree.getImmediateChild, entries, List.mem_dlookup hkeys he]
  rfl

/-- A tree that is not empty has a value somewhere. -/
theorem exists_value? (h : t.WellFormed) (hne : t.isEmpty = false) :
    ∃ q, ((t.getChild q).value?).isSome = true := by
  induction h with
  | leaf v => exact ⟨[], rfl⟩
  | @children es hkeys hnonempty _ ih =>
      cases es with
      | nil => cases hne
      | cons e es =>
          obtain ⟨q, hq⟩ := ih e List.mem_cons_self (hnonempty e List.mem_cons_self)
          refine ⟨e.1 :: q, ?_⟩
          rwa [getChild_cons, getImmediateChild_of_mem hkeys List.mem_cons_self]

/-- A node has no children if there is no value below it. -/
theorem entries_eq_nil_iff (h : t.WellFormed) :
    t.entries = [] ↔ ∀ k q, (t.getChild (k :: q)).value? = none := by
  cases h with
  | leaf v => simp [entries, getChild_cons]
  | @children es hkeys hnonempty hwf =>
      constructor
      · intro hnil k q
        have hempty : KeyTree.children es = KeyTree.empty := congrArg KeyTree.children hnil
        rw [hempty, getChild_empty, value?_empty]
      · intro hnone
        cases es with
        | nil => rfl
        | cons e es =>
            obtain ⟨q, hq⟩ := (hwf e List.mem_cons_self).exists_value?
              (hnonempty e List.mem_cons_self)
            have hvalue := hnone e.1 q
            rw [getChild_cons, getImmediateChild_of_mem hkeys List.mem_cons_self] at hvalue
            rw [hvalue] at hq
            cases hq

end WellFormed

end KeyTree

end FirebaseLogin
