import FirebaseLogin.KeyTree

/-!
# Immutable Trees

`FImmutableTree.m`: a tree whose nodes may each hold a value, with children under keys. The
children of a node are kept without an order, as in `KeyTree`; the source keeps them sorted by
`compare:`, and what is proved holds for any order and for keys that `compare:` tells apart.

The pending writes of the database client are such trees. In them a node with a value has no
children, and no branch ends without a value: `Pruned` says so, with a condition on the values.

## Main results

* `Pruned.setTree_empty`: a tree stays pruned when a part of it is removed.
* `Pruned.eq_of_above`: no value is above another one.
-/

namespace FirebaseLogin

/-- `FImmutableTree.m`: an optional value and the children under their keys. The source keeps the
children in a sorted dictionary under `compare:`; here their keys are told apart by equality,
which is the same for keys that `compare:` tells apart. -/
inductive FImmutableTree (κ α : Type) where
  | node (value : Option α) (children : List (Σ _ : κ, FImmutableTree κ α))

namespace FImmutableTree

variable {κ α : Type}

/-- The value at the root. -/
def value : FImmutableTree κ α → Option α
  | .node v _ => v

/-- The children of the root. -/
def children : FImmutableTree κ α → List (Σ _ : κ, FImmutableTree κ α)
  | .node _ es => es

/-- The tree without a value or a child. -/
def empty : FImmutableTree κ α := .node none []

/-- `initWithValue:`. -/
def ofValue (v : α) : FImmutableTree κ α := .node (some v) []

/-- `isEmpty`: neither a value nor a child. -/
def isEmpty (t : FImmutableTree κ α) : Bool := t.value.isNone && t.children.isEmpty

/-- Only `empty` is empty. -/
theorem isEmpty_iff {t : FImmutableTree κ α} : t.isEmpty = true ↔ t = empty := by
  obtain ⟨v, es⟩ := t
  cases v with
  | none => simp [isEmpty, value, children, empty]
  | some v => simp [isEmpty, value, empty]

/-- A root without a value is empty when it has no children. -/
@[simp]
theorem isEmpty_node_none (es : List (Σ _ : κ, FImmutableTree κ α)) :
    (node none es).isEmpty = es.isEmpty := rfl

/-- A tree with a value is not empty. -/
@[simp]
theorem isEmpty_ofValue (v : α) : (ofValue v : FImmutableTree κ α).isEmpty = false := rfl

mutual
/-- The values with their paths, in the order of `forEach:`. -/
def forEach : FImmutableTree κ α → List (List κ × α)
  | .node value children => forEachChildren children ++ value.toList.map fun v => ([], v)
termination_by structural t => t

/-- The values of a list of children, with their paths. -/
def forEachChildren : List (Σ _ : κ, FImmutableTree κ α) → List (List κ × α)
  | [] => []
  | e :: es => (forEachChild e).map (fun p => (e.1 :: p.1, p.2)) ++ forEachChildren es
termination_by structural es => es

/-- The values of one child, with their paths from its parent. -/
def forEachChild : (Σ _ : κ, FImmutableTree κ α) → List (List κ × α)
  | ⟨_, t⟩ => forEach t
termination_by structural e => e
end

/-- A node with a value has no children, and every branch ends in a value. -/
inductive Pruned (P : α → Prop) : FImmutableTree κ α → Prop
  | value {v : α} : P v → Pruned P (.node (some v) [])
  | children {es : List (Σ _ : κ, FImmutableTree κ α)} : es.NodupKeys →
      (∀ e ∈ es, e.2.isEmpty = false) → (∀ e ∈ es, Pruned P e.2) → Pruned P (.node none es)

/-- The empty tree is pruned. -/
theorem Pruned.empty {P : α → Prop} : Pruned P (FImmutableTree.empty : FImmutableTree κ α) :=
  .children (by simp) (by simp) (by simp)

/-! ### The values of a pruned tree -/

/-- A value of a list of children is one of a child, under its key. -/
theorem mem_forEachChildren {es : List (Σ _ : κ, FImmutableTree κ α)} {p : List κ × α} :
    p ∈ forEachChildren es ↔ ∃ e ∈ es, ∃ p' ∈ forEach e.2, p = (e.1 :: p'.1, p'.2) := by
  induction es with
  | nil => simp [forEachChildren]
  | cons e es ih =>
      have hchild : forEachChild e = forEach e.2 := by
        obtain ⟨k, t⟩ := e
        rw [forEachChild]
      rw [forEachChildren, List.mem_append, ih, hchild, List.mem_map]
      constructor
      · rintro (⟨p', hp', rfl⟩ | ⟨e', he', p', hp', rfl⟩)
        · exact ⟨e, List.mem_cons_self, p', hp', rfl⟩
        · exact ⟨e', List.mem_cons_of_mem _ he', p', hp', rfl⟩
      · rintro ⟨e', he', p', hp', rfl⟩
        rcases List.mem_cons.mp he' with rfl | he'
        · exact .inl ⟨p', hp', rfl⟩
        · exact .inr ⟨e', he', p', hp', rfl⟩

/-- A value of a tree without one at the root is one of a child, under its key. -/
theorem mem_forEach_node_none {es : List (Σ _ : κ, FImmutableTree κ α)} {p : List κ × α} :
    p ∈ forEach (.node none es) ↔ ∃ e ∈ es, ∃ p' ∈ forEach e.2, p = (e.1 :: p'.1, p'.2) := by
  rw [forEach, Option.toList_none, List.map_nil, List.append_nil, mem_forEachChildren]

/-- The values meet the condition. -/
theorem Pruned.of_mem_forEach {P : α → Prop} {t : FImmutableTree κ α} (h : Pruned P t)
    {p : List κ × α} (hp : p ∈ forEach t) : P p.2 := by
  induction h generalizing p with
  | @value v hv =>
      obtain rfl : p = ([], v) := by simpa [forEach, forEachChildren] using hp
      exact hv
  | children _ _ _ ih =>
      obtain ⟨e, he, p', hp', rfl⟩ := mem_forEach_node_none.mp hp
      have hcond := ih e he hp'
      exact hcond

/-- No value is above another one. -/
theorem Pruned.eq_of_above {P : α → Prop} {t : FImmutableTree κ α} (h : Pruned P t)
    {p q : List κ × α} (hp : p ∈ forEach t) (hq : q ∈ forEach t) (hpq : p.1 <+: q.1) :
    p.1 = q.1 := by
  induction h generalizing p q with
  | @value v hv =>
      obtain rfl : p = ([], v) := by simpa [forEach, forEachChildren] using hp
      obtain rfl : q = ([], v) := by simpa [forEach, forEachChildren] using hq
      rfl
  | @children es hkeys _ _ ih =>
      obtain ⟨e, he, p', hp', rfl⟩ := mem_forEach_node_none.mp hp
      obtain ⟨e', he', q', hq', rfl⟩ := mem_forEach_node_none.mp hq
      obtain ⟨hkey, hpre⟩ := List.cons_prefix_cons.mp hpq
      obtain rfl : e = e' := hkeys.eq_of_fst_eq he he' hkey
      exact congrArg (e.1 :: ·) (ih e he hp' hq' hpre)

/-! ### Paths -/

variable [DecidableEq κ]

/-- The child under a key, empty when there is none. -/
def child (t : FImmutableTree κ α) (k : κ) : FImmutableTree κ α :=
  (t.children.dlookup k).getD empty

/-- The value nearest to the root on a path, with its path. -/
def findRootMostValueAndPath : FImmutableTree κ α → List κ → Option (List κ × α)
  | .node (some v) _, _ => some ([], v)
  | .node none _, [] => none
  | .node none es, k :: relativePath =>
      match es.dlookup k with
      | none => none
      | some t => (findRootMostValueAndPath t relativePath).map fun r => (k :: r.1, r.2)
termination_by structural _ p => p

/-- `subtreeAtPath:`. -/
def subtreeAtPath : FImmutableTree κ α → List κ → FImmutableTree κ α
  | t, [] => t
  | t, k :: relativePath =>
      match t.children.dlookup k with
      | none => empty
      | some t => t.subtreeAtPath relativePath
termination_by structural _ p => p

/-- `setValue:atPath:`. -/
def setValue (newValue : α) : FImmutableTree κ α → List κ → FImmutableTree κ α
  | t, [] => .node (some newValue) t.children
  | t, k :: relativePath =>
      .node t.value (t.children.kinsert k (setValue newValue (t.child k) relativePath))
termination_by structural _ p => p

/-- `setTree:atPath:`, which leaves no empty child behind. -/
def setTree (newTree : FImmutableTree κ α) : FImmutableTree κ α → List κ → FImmutableTree κ α
  | _, [] => newTree
  | t, k :: relativePath =>
      let newChild := setTree newTree (t.child k) relativePath
      .node t.value (if newChild.isEmpty then t.children.kerase k
        else t.children.kinsert k newChild)
termination_by structural _ p => p

/-! ### Pruned trees -/

namespace Pruned

variable {P : α → Prop} {t n : FImmutableTree κ α}

/-- A child of a pruned tree is pruned. -/
theorem child (h : Pruned P t) (k : κ) : Pruned P (t.child k) := by
  cases h with
  | value hv => exact .empty
  | @children es hkeys hne hpruned =>
      rw [FImmutableTree.child, FImmutableTree.children]
      cases hlookup : es.dlookup k with
      | none => exact .empty
      | some c => exact hpruned ⟨k, c⟩ (List.of_mem_dlookup hlookup)

/-- A pruned tree stays so when a child that is not empty is put in. -/
theorem kinsert {es : List (Σ _ : κ, FImmutableTree κ α)} (h : Pruned P (.node none es)) (k : κ)
    (hn : Pruned P n) (hne : n.isEmpty = false) : Pruned P (.node none (es.kinsert k n)) := by
  cases h with
  | children hkeys hnonempty hpruned =>
      have hmem : ∀ e ∈ es.kinsert k n, e = ⟨k, n⟩ ∨ e ∈ es := by
        intro e he
        rw [List.kinsert_def, List.mem_cons] at he
        exact he.imp id fun he => (List.kerase_sublist k _).subset he
      refine .children (List.kinsert_nodupKeys k n hkeys) ?_ ?_
      · intro e he
        rcases hmem e he with rfl | he
        · exact hne
        · exact hnonempty e he
      · intro e he
        rcases hmem e he with rfl | he
        · exact hn
        · exact hpruned e he

/-- A pruned tree stays so when a child is taken out. -/
theorem kerase {es : List (Σ _ : κ, FImmutableTree κ α)} (h : Pruned P (.node none es)) (k : κ) :
    Pruned P (.node none (es.kerase k)) := by
  cases h with
  | children hkeys hnonempty hpruned =>
      have hsub : ∀ e ∈ es.kerase k, e ∈ es := (List.kerase_sublist k es).subset
      exact .children (hkeys.kerase k) (fun e he => hnonempty e (hsub e he))
        fun e he => hpruned e (hsub e he)

end Pruned

/-- The empty tree has empty children. -/
theorem child_empty (k : κ) : (empty : FImmutableTree κ α).child k = empty := rfl

/-- Nothing is removed from the empty tree. -/
theorem setTree_empty_empty (p : List κ) :
    setTree empty (empty : FImmutableTree κ α) p = empty := by
  induction p with
  | nil => rfl
  | cons k p ih =>
      rw [setTree, child_empty, ih]
      rfl

/-- Removals keep a tree pruned. -/
theorem Pruned.setTree_empty {P : α → Prop} {t : FImmutableTree κ α} (h : Pruned P t)
    (p : List κ) : Pruned P (setTree FImmutableTree.empty t p) := by
  induction p generalizing t with
  | nil => exact .empty
  | cons k p ih =>
      have hchild := ih (h.child k)
      cases h with
      | value hv =>
          rw [setTree, FImmutableTree.child, FImmutableTree.children, List.dlookup_nil,
            Option.getD_none, setTree_empty_empty]
          exact .value hv
      | children hkeys hne hpruned =>
          rw [setTree]
          split
          · exact Pruned.kerase (.children hkeys hne hpruned) k
          · rename_i hnonempty
            exact Pruned.kinsert (.children hkeys hne hpruned) k hchild
              (Bool.not_eq_true _ ▸ hnonempty)

end FImmutableTree

end FirebaseLogin
