import FirebaseLogin.ImmutableTree

/-!
# Compound Writes

`FCompoundWrite.m`: the pending writes of the database client, merged into one tree. A write below
another one is done on the node of the latter, and a write above others takes their place, so that
the tree holds a node at each of its outermost locations.

What a compound write does is said by `sets`: at each location it keeps the value of the data or
sets it. Adding a write to it is then the same as doing the write after it, as long as the writes
are not removals: a compound write forgets that a value above it was lost when all that was written
there is removed again.

The keys of the paths are any type with a decidable equality. They stand for keys of the source
that all its comparisons tell apart (`compare:` in the tree of the writes, `compareKey:toKey:` in
the nodes, `isEqualToString:` in the paths) and none of which is `.priority`: the priorities of
nodes, and the branches of the source for them, are left out.

## Main results

* `applyToNode_value?`: what a compound write does.
* `sets_addWrite`: **a write that is merged into the others is done after them.**
* `childCompoundWriteAtPath_spec`, `completeNodeAtPath_spec`: what is seen at a path.
-/

namespace FirebaseLogin

open KeyTree
open FImmutableTree (ofValue setValue setTree Pruned)

variable {κ ν : Type}

/-- `FCompoundWrite.m`: the tree of the nodes that are written. -/
structure FCompoundWrite (κ ν : Type) where
  writeTree : FImmutableTree κ (KeyTree κ ν)

namespace FCompoundWrite

/-- `emptyWrite`. -/
def emptyWrite : FCompoundWrite κ ν := ⟨FImmutableTree.empty⟩

/-- `isEmpty`. -/
def isEmpty (w : FCompoundWrite κ ν) : Bool := w.writeTree.isEmpty

variable [DecidableEq κ]

/-- `relativePathFrom:to:`, for a path that contains the other. -/
def relativePath (outer inner : List κ) : List κ := inner.drop outer.length

/-- `addWrite:atPath:`: the node is written into a write above it, or takes the place of what is
below. -/
def addWrite (node : KeyTree κ ν) (path : List κ) (w : FCompoundWrite κ ν) : FCompoundWrite κ ν :=
  if path = [] then ⟨ofValue node⟩
  else
    match w.writeTree.findRootMostValueAndPath path with
    | some rootMost =>
        let value := rootMost.2.updateChild (relativePath rootMost.1 path) node
        ⟨setValue value w.writeTree rootMost.1⟩
    | none => ⟨setTree (ofValue node) w.writeTree path⟩

/-- `addCompoundWrite:atPath:`, one write after the other. -/
def addCompoundWrite (w compoundWrite : FCompoundWrite κ ν) (path : List κ) :
    FCompoundWrite κ ν :=
  compoundWrite.writeTree.forEach.foldl (fun newWrite e => newWrite.addWrite e.2 (path ++ e.1)) w

/-- `removeWriteAtPath:`, which takes out the whole subtree at the path. -/
def removeWriteAtPath (path : List κ) (w : FCompoundWrite κ ν) : FCompoundWrite κ ν :=
  if path = [] then emptyWrite else ⟨setTree FImmutableTree.empty w.writeTree path⟩

/-- `completeNodeAtPath:`: the node at a path that a write at or above it decides. -/
def completeNodeAtPath (path : List κ) (w : FCompoundWrite κ ν) : Option (KeyTree κ ν) :=
  (w.writeTree.findRootMostValueAndPath path).map fun rootMost =>
    rootMost.2.getChild (relativePath rootMost.1 path)

/-- `hasCompleteWriteAtPath:`. -/
def hasCompleteWriteAtPath (path : List κ) (w : FCompoundWrite κ ν) : Bool :=
  (w.completeNodeAtPath path).isSome

/-- `childCompoundWriteAtPath:`: the writes as seen from a path. -/
def childCompoundWriteAtPath (path : List κ) (w : FCompoundWrite κ ν) : FCompoundWrite κ ν :=
  if path = [] then w
  else
    match w.completeNodeAtPath path with
    | some shadowingNode => ⟨ofValue shadowingNode⟩
    | none => ⟨w.writeTree.subtreeAtPath path⟩

mutual
/-- `applySubtreeWrite:atPath:toNode:`. The source sets a write at the child `.priority` aside and
applies it last, on a node that is not empty. This branch is left out: no write that is modelled
here has `.priority` in its path. -/
def applySubtreeWrite (relativePath : List κ) (node : KeyTree κ ν) :
    FImmutableTree κ (KeyTree κ ν) → KeyTree κ ν
  | .node (some value) _ => node.updateChild relativePath value
  | .node none es => applyChildren relativePath node es
termination_by structural t => t

/-- The children in their order, each on what the one before has left. -/
def applyChildren (relativePath : List κ) (node : KeyTree κ ν) :
    List (Σ _ : κ, FImmutableTree κ (KeyTree κ ν)) → KeyTree κ ν
  | [] => node
  | e :: es => applyChildren relativePath (applyChild relativePath node e) es
termination_by structural es => es

/-- The subtree of one key. -/
def applyChild (relativePath : List κ) (node : KeyTree κ ν) :
    (Σ _ : κ, FImmutableTree κ (KeyTree κ ν)) → KeyTree κ ν
  | ⟨key, t⟩ => applySubtreeWrite (relativePath ++ [key]) node t
termination_by structural e => e
end

/-- `applyToNode:`: the node with the writes done on it. -/
def applyToNode (node : KeyTree κ ν) (w : FCompoundWrite κ ν) : KeyTree κ ν :=
  applySubtreeWrite [] node w.writeTree

end FCompoundWrite

/-! ### What a compound write does -/

section Sets

variable [DecidableEq κ]

/-- What a tree of writes sets the value at a location to, if it does. -/
def sets : FImmutableTree κ (KeyTree κ ν) → List κ → Option (Option ν)
  | .node (some n) _, q => some (n.getChild q).value?
  | .node none es, [] => if es.isEmpty then none else some none
  | .node none es, k :: q =>
      match es.dlookup k with
      | none => none
      | some t => sets t q
termination_by structural _ q => q

/-- What a tree of writes at a path sets the value at a location to. -/
def setsAt : List κ → FImmutableTree κ (KeyTree κ ν) → List κ → Option (Option ν)
  | [], t, q => sets t q
  | _ :: _, t, [] => if t.isEmpty then none else some none
  | k :: p, t, k' :: q => if k' = k then setsAt p t q else none

/-- A node that a write may hold below the root. -/
def Solid (n : KeyTree κ ν) : Prop := n.WellFormed ∧ n.isEmpty = false

/-- A write at the root sets every value. -/
@[simp]
theorem sets_ofValue (n : KeyTree κ ν) (q : List κ) :
    sets (ofValue n) q = some (n.getChild q).value? := by
  cases q with
  | nil => rfl
  | cons k q => rfl

/-- No write sets nothing. -/
@[simp]
theorem sets_empty (q : List κ) :
    sets (FImmutableTree.empty : FImmutableTree κ (KeyTree κ ν)) q = none := by
  cases q with
  | nil => rfl
  | cons k q => rfl

/-- One write. -/
theorem value?_updateChild_eq {t n : KeyTree κ ν} (ht : t.WellFormed) {p : List κ}
    (hn : n.isEmpty = false ∨ p = []) (q : List κ) :
    ((t.updateChild p n).getChild q).value? =
      (setsAt p (ofValue n) q).getD (t.getChild q).value? := by
  induction p generalizing t q with
  | nil => rw [updateChild_nil, setsAt, sets_ofValue, Option.getD_some]
  | cons k p ih =>
      have hne : n.isEmpty = false := by simpa using hn
      cases q with
      | nil =>
          rw [getChild_nil, value?_updateChild_cons, hne, setsAt]
          rfl
      | cons k' q =>
          rw [setsAt]
          by_cases hk : k' = k
          · subst hk
            rw [if_pos rfl, getChild_cons, updateChild_cons,
              ht.getImmediateChild_updateImmediateChild, ih (ht.getImmediateChild k') (.inl hne),
              getChild_cons]
          · rw [if_neg hk, getChild_cons, getImmediateChild_updateChild_of_ne t n hk,
              getChild_cons, Option.getD_none]

/-- The first child and the others set different locations. -/
theorem setsAt_cons (p : List κ) {e : Σ _ : κ, FImmutableTree κ (KeyTree κ ν)}
    {es : List (Σ _ : κ, FImmutableTree κ (KeyTree κ ν))} (hkeys : (e :: es).NodupKeys)
    (hne : e.2.isEmpty = false) (q : List κ) :
    setsAt p (.node none (e :: es)) q =
      (setsAt p (.node none es) q).or (setsAt (p ++ [e.1]) e.2 q) := by
  induction p generalizing q with
  | nil =>
      cases q with
      | nil =>
          cases es with
          | nil => simp [setsAt, sets, hne]
          | cons e' es => simp [setsAt, sets, hne]
      | cons k q =>
          by_cases hk : k = e.1
          · obtain ⟨k', t⟩ := e
            obtain rfl : k = k' := hk
            have hnone : es.dlookup k = none :=
              List.dlookup_eq_none.mpr (List.nodupKeys_cons.mp hkeys).1
            simp [setsAt, sets, hnone]
          · have hlookup : (e :: es).dlookup k = es.dlookup k :=
              List.dlookup_cons_ne es e hk
            simp only [setsAt, sets, hlookup, List.nil_append, if_neg hk, Option.or_none]
  | cons k p ih =>
      cases q with
      | nil =>
          cases es with
          | nil => simp [setsAt, hne]
          | cons e' es => simp [setsAt, hne]
      | cons k' q =>
          by_cases hk : k' = k
          · rw [List.cons_append, setsAt, setsAt, setsAt, if_pos hk, if_pos hk, if_pos hk, ih]
          · rw [List.cons_append, setsAt, setsAt, setsAt, if_neg hk, if_neg hk, if_neg hk,
              Option.or_none]

/-- No write at a path sets nothing. -/
@[simp]
theorem setsAt_empty (p q : List κ) :
    setsAt p (.node none [] : FImmutableTree κ (KeyTree κ ν)) q = none := by
  induction p generalizing q with
  | nil => exact sets_empty q
  | cons k p ih =>
      cases q with
      | nil => rfl
      | cons k' q =>
          rw [setsAt, ih]
          split
          · rfl
          · rfl

/-- One child is applied below its key. -/
theorem applyChild_eq (p : List κ) (n : KeyTree κ ν)
    (e : Σ _ : κ, FImmutableTree κ (KeyTree κ ν)) :
    FCompoundWrite.applyChild p n e =
      FCompoundWrite.applySubtreeWrite (p ++ [e.1]) n e.2 := by
  obtain ⟨k, t⟩ := e
  rw [FCompoundWrite.applyChild]

/-- The writes of a pruned tree keep a tree well formed. -/
theorem wellFormed_applySubtreeWrite {t : FImmutableTree κ (KeyTree κ ν)} (h : Pruned Solid t)
    (p : List κ) {n : KeyTree κ ν} (hn : n.WellFormed) :
    (FCompoundWrite.applySubtreeWrite p n t).WellFormed := by
  induction h generalizing p n with
  | value hv =>
      rw [FCompoundWrite.applySubtreeWrite]
      exact hn.updateChild p hv.1
  | @children es hkeys hne hpruned ih =>
      rw [FCompoundWrite.applySubtreeWrite]
      clear hkeys hne hpruned
      induction es generalizing n with
      | nil => rwa [FCompoundWrite.applyChildren]
      | cons e es ihes =>
          rw [FCompoundWrite.applyChildren, applyChild_eq]
          have hfirst := ih e List.mem_cons_self (p ++ [e.1]) hn
          exact ihes (fun e he => ih e (List.mem_cons_of_mem _ he)) hfirst

/-- What the writes of a pruned tree at a path do. -/
theorem applySubtreeWrite_value? {t : FImmutableTree κ (KeyTree κ ν)} (h : Pruned Solid t)
    (p : List κ) {n : KeyTree κ ν} (hn : n.WellFormed) (q : List κ) :
    ((FCompoundWrite.applySubtreeWrite p n t).getChild q).value? =
      (setsAt p t q).getD (n.getChild q).value? := by
  induction h generalizing p n with
  | value hv =>
      rw [FCompoundWrite.applySubtreeWrite]
      exact value?_updateChild_eq hn (.inl hv.2) q
  | @children es hkeys hne hpruned ih =>
      rw [FCompoundWrite.applySubtreeWrite]
      induction es generalizing n with
      | nil =>
          rw [FCompoundWrite.applyChildren, setsAt_empty, Option.getD_none]
      | cons e es ihes =>
          have hmem : ∀ e' ∈ es, e' ∈ e :: es := fun e' he' => List.mem_cons_of_mem _ he'
          have hfirst : (FCompoundWrite.applySubtreeWrite (p ++ [e.1]) n e.2).WellFormed :=
            wellFormed_applySubtreeWrite (hpruned e List.mem_cons_self) _ hn
          have hrest := ihes (List.nodupKeys_cons.mp hkeys).2 (fun e' he' => hne e' (hmem e' he'))
            (fun e' he' => hpruned e' (hmem e' he')) (fun e' he' => ih e' (hmem e' he')) hfirst
          rw [FCompoundWrite.applyChildren, applyChild_eq]
          refine hrest.trans ?_
          rw [ih e List.mem_cons_self (p ++ [e.1]) hn,
            setsAt_cons p hkeys (hne e List.mem_cons_self)]
          cases setsAt p (.node none es) q with
          | none => rfl
          | some v => rfl

/-! ### Adding a write -/

/-- A tree that gets a value is not empty. -/
theorem isEmpty_setTree_ofValue (t : FImmutableTree κ (KeyTree κ ν)) (n : KeyTree κ ν)
    (p : List κ) : (setTree (ofValue n) t p).isEmpty = false := by
  induction p generalizing t with
  | nil => rfl
  | cons k p ih =>
      rw [setTree, if_neg (Bool.eq_false_iff.mp (ih (t.child k))), List.kinsert_def]
      cases t.value with
      | none => rfl
      | some v => rfl

/-- A write below a write at the root is done on the node of the latter. -/
theorem addWrite_ofValue (v n : KeyTree κ ν) {p : List κ} (hp : p ≠ []) :
    FCompoundWrite.addWrite n p ⟨ofValue v⟩ = ⟨ofValue (v.updateChild p n)⟩ := by
  rw [FCompoundWrite.addWrite, if_neg hp]
  have hfind : (ofValue v : FImmutableTree κ (KeyTree κ ν)).findRootMostValueAndPath p =
      some ([], v) := by
    cases p with
    | nil => rfl
    | cons k p => rfl
  simp only [hfind]
  rfl

/-- Without a write above, the node is put into the tree. -/
theorem addWrite_of_none {t : FImmutableTree κ (KeyTree κ ν)} {p : List κ}
    (hfind : t.findRootMostValueAndPath p = none) (n : KeyTree κ ν) :
    FCompoundWrite.addWrite n p ⟨t⟩ = ⟨setTree (ofValue n) t p⟩ := by
  rw [FCompoundWrite.addWrite]
  split
  · rename_i hp
    rw [hp, setTree]
  · simp only [hfind]

/-- With a write above, the node is done on the node of the latter. -/
theorem addWrite_of_some {P : KeyTree κ ν → Prop} {t : FImmutableTree κ (KeyTree κ ν)}
    (h : Pruned P t) {p r : List κ} {v : KeyTree κ ν}
    (hfind : t.findRootMostValueAndPath p = some (r, v)) (n : KeyTree κ ν) :
    FCompoundWrite.addWrite n p ⟨t⟩ =
      ⟨setValue (v.updateChild (FCompoundWrite.relativePath r p) n) t r⟩ := by
  rw [FCompoundWrite.addWrite]
  split
  · rename_i hp
    subst hp
    cases h with
    | value hv =>
        obtain ⟨rfl, rfl⟩ := Prod.mk.inj (Option.some.inj hfind)
        rw [FCompoundWrite.relativePath, List.drop_nil, updateChild_nil]
        rfl
    | children => cases hfind
  · simp only [hfind]

/-- The search for the nearest write goes on in the child of the first key. -/
theorem findRootMostValueAndPath_cons (es : List (Σ _ : κ, FImmutableTree κ (KeyTree κ ν)))
    (k : κ) (p : List κ) :
    (FImmutableTree.node none es).findRootMostValueAndPath (k :: p) =
      (((FImmutableTree.node none es).child k).findRootMostValueAndPath p).map
        fun r => (k :: r.1, r.2) := by
  rw [FImmutableTree.findRootMostValueAndPath, FImmutableTree.child, FImmutableTree.children]
  cases hlookup : es.dlookup k with
  | some t => rfl
  | none =>
      cases p with
      | nil => rfl
      | cons k' p => rfl

/-- A write below a node without a value is added to a child. -/
theorem addWrite_cons {es : List (Σ _ : κ, FImmutableTree κ (KeyTree κ ν))}
    {P : KeyTree κ ν → Prop} (h : Pruned P (.node none es)) (n : KeyTree κ ν) (k : κ)
    (p : List κ) :
    FCompoundWrite.addWrite n (k :: p) ⟨.node none es⟩ =
      ⟨.node none (es.kinsert k
        (FCompoundWrite.addWrite n p ⟨(FImmutableTree.node none es).child k⟩).writeTree)⟩ := by
  have hcons := findRootMostValueAndPath_cons es k p
  cases hfind : ((FImmutableTree.node none es).child k).findRootMostValueAndPath p with
  | none =>
      rw [hfind, Option.map_none] at hcons
      rw [addWrite_of_none hcons, addWrite_of_none hfind, setTree,
        if_neg (Bool.eq_false_iff.mp (isEmpty_setTree_ofValue _ n p))]
      rfl
  | some rootMost =>
      obtain ⟨r, v⟩ := rootMost
      rw [hfind, Option.map_some] at hcons
      rw [addWrite_of_some h hcons, addWrite_of_some (h.child k) hfind, setValue]
      rfl

/-- Where a location below a key is set, one of the child is. -/
theorem sets_cons (es : List (Σ _ : κ, FImmutableTree κ (KeyTree κ ν))) (k : κ) (q : List κ) :
    sets (.node none es) (k :: q) = sets ((FImmutableTree.node none es).child k) q := by
  rw [sets, FImmutableTree.child, FImmutableTree.children]
  cases es.dlookup k with
  | none => rw [Option.getD_none, sets_empty]
  | some t => rfl

/-- The children after one of them was put in. -/
theorem child_kinsert (es : List (Σ _ : κ, FImmutableTree κ (KeyTree κ ν))) (k k' : κ)
    (t : FImmutableTree κ (KeyTree κ ν)) :
    (FImmutableTree.node none (es.kinsert k t)).child k' =
      if k' = k then t else (FImmutableTree.node none es).child k' := by
  rw [FImmutableTree.child, FImmutableTree.children]
  split
  · rename_i hk
    rw [hk, List.dlookup_kinsert, Option.getD_some]
  · rename_i hk
    rw [List.dlookup_kinsert_ne hk]
    rfl

/-- A write on the node of another one. -/
theorem sets_addWrite_ofValue {v n : KeyTree κ ν} (hv : v.WellFormed) {p : List κ}
    (hn : n.isEmpty = false ∨ p = []) (q : List κ) :
    sets (FCompoundWrite.addWrite n p ⟨ofValue v⟩).writeTree q =
      (setsAt p (ofValue n) q).or (sets (ofValue v) q) := by
  by_cases hp : p = []
  · subst hp
    rw [FCompoundWrite.addWrite, if_pos rfl, setsAt, sets_ofValue, Option.some_or]
  · rw [addWrite_ofValue v n hp, sets_ofValue, sets_ofValue, value?_updateChild_eq hv hn]
    cases setsAt p (ofValue n) q with
    | none => rfl
    | some w => rfl

/-- **A write that is merged into the others is done after them.** -/
theorem sets_addWrite {t : FImmutableTree κ (KeyTree κ ν)} (h : Pruned Solid t)
    {n : KeyTree κ ν} {p : List κ} (hn : n.isEmpty = false ∨ p = []) (q : List κ) :
    sets (FCompoundWrite.addWrite n p ⟨t⟩).writeTree q =
      (setsAt p (ofValue n) q).or (sets t q) := by
  induction p generalizing t q with
  | nil => rw [FCompoundWrite.addWrite, if_pos rfl, setsAt, sets_ofValue, Option.some_or]
  | cons k p ih =>
      have hne : n.isEmpty = false := by simpa using hn
      cases h with
      | value hv => exact sets_addWrite_ofValue hv.1 hn q
      | children hkeys hnonempty hpruned =>
          have hnode := Pruned.children hkeys hnonempty hpruned
          rw [addWrite_cons hnode]
          cases q with
          | nil =>
              rw [List.kinsert_def, sets, setsAt]
              rfl
          | cons k' q =>
              rw [sets_cons, child_kinsert, setsAt]
              by_cases hk : k' = k
              · rw [if_pos hk, if_pos hk, ih (hnode.child k) (.inl hne), sets_cons, hk]
              · rw [if_neg hk, if_neg hk, sets_cons, Option.none_or]

/-- The tree stays pruned. -/
theorem pruned_addWrite {t : FImmutableTree κ (KeyTree κ ν)} (h : Pruned Solid t)
    {n : KeyTree κ ν} (hn : Solid n) (p : List κ) :
    Pruned Solid (FCompoundWrite.addWrite n p ⟨t⟩).writeTree ∧
      (FCompoundWrite.addWrite n p ⟨t⟩).writeTree.isEmpty = false := by
  induction p generalizing t with
  | nil =>
      rw [FCompoundWrite.addWrite, if_pos rfl]
      exact ⟨.value hn, rfl⟩
  | cons k p ih =>
      cases h with
      | @value v hv =>
          have hadd := addWrite_ofValue (κ := κ) v n (List.cons_ne_nil k p)
          rw [ofValue] at hadd
          rw [hadd]
          exact ⟨.value ⟨hv.1.updateChild _ hn.1, isEmpty_updateChild _ _ hn.2⟩, rfl⟩
      | children hkeys hnonempty hpruned =>
          have hnode := Pruned.children hkeys hnonempty hpruned
          obtain ⟨hadd, hne⟩ := ih (hnode.child k)
          rw [addWrite_cons hnode]
          exact ⟨hnode.kinsert k hadd hne, rfl⟩

/-! ### What is seen at a path -/

/-- A subtree is one of the child of the first key. -/
theorem subtreeAtPath_cons (es : List (Σ _ : κ, FImmutableTree κ (KeyTree κ ν))) (k : κ)
    (p : List κ) :
    (FImmutableTree.node none es).subtreeAtPath (k :: p) =
      ((FImmutableTree.node none es).child k).subtreeAtPath p := by
  rw [FImmutableTree.subtreeAtPath, FImmutableTree.child, FImmutableTree.children]
  cases es.dlookup k with
  | some t => rfl
  | none =>
      cases p with
      | nil => rfl
      | cons k' p => rfl

/-- The subtrees of a pruned tree are pruned. -/
theorem pruned_subtreeAtPath {P : KeyTree κ ν → Prop} {t : FImmutableTree κ (KeyTree κ ν)}
    (h : Pruned P t) (p : List κ) : Pruned P (t.subtreeAtPath p) := by
  induction p generalizing t with
  | nil => exact h
  | cons k p ih =>
      cases h with
      | value hv => exact .empty
      | children hkeys hne hpruned =>
          rw [subtreeAtPath_cons]
          exact ih (Pruned.child (.children hkeys hne hpruned) k)

/-- Below a value it decides. -/
theorem sets_of_some {t : FImmutableTree κ (KeyTree κ ν)} {p r : List κ} {v : KeyTree κ ν}
    (hfind : t.findRootMostValueAndPath p = some (r, v)) (q : List κ) :
    sets t (p ++ q) = some ((v.getChild (FCompoundWrite.relativePath r p)).getChild q).value? := by
  induction p generalizing t r with
  | nil =>
      obtain ⟨w, es⟩ := t
      cases w with
      | none => cases hfind
      | some w =>
          obtain ⟨rfl, rfl⟩ := Prod.mk.inj (Option.some.inj hfind)
          rw [List.nil_append, sets, FCompoundWrite.relativePath, List.drop_nil, getChild_nil]
  | cons k p ih =>
      obtain ⟨w, es⟩ := t
      cases w with
      | some w =>
          obtain ⟨rfl, rfl⟩ := Prod.mk.inj (Option.some.inj hfind)
          rw [sets, getChild_append]
          rfl
      | none =>
          rw [findRootMostValueAndPath_cons, Option.map_eq_some_iff] at hfind
          obtain ⟨⟨r', v'⟩, hfind, hpair⟩ := hfind
          obtain ⟨rfl, rfl⟩ := Prod.mk.inj hpair
          rw [List.cons_append, sets_cons, ih hfind]
          rfl

/-- Without a value on the path the subtree decides. -/
theorem sets_of_none {t : FImmutableTree κ (KeyTree κ ν)} {p : List κ}
    (hfind : t.findRootMostValueAndPath p = none) (q : List κ) :
    sets t (p ++ q) = sets (t.subtreeAtPath p) q := by
  induction p generalizing t with
  | nil => rw [List.nil_append, FImmutableTree.subtreeAtPath]
  | cons k p ih =>
      obtain ⟨w, es⟩ := t
      cases w with
      | some w => cases hfind
      | none =>
          rw [findRootMostValueAndPath_cons, Option.map_eq_none_iff] at hfind
          rw [List.cons_append, sets_cons, subtreeAtPath_cons, ih hfind]

/-- A complete node decides what is seen at and below its path. -/
theorem completeNodeAtPath_spec {t : FImmutableTree κ (KeyTree κ ν)} {p : List κ}
    {n : KeyTree κ ν} (hnode : FCompoundWrite.completeNodeAtPath p ⟨t⟩ = some n) (q : List κ) :
    sets t (p ++ q) = some (n.getChild q).value? := by
  rw [FCompoundWrite.completeNodeAtPath, Option.map_eq_some_iff] at hnode
  obtain ⟨⟨r, v⟩, hfind, rfl⟩ := hnode
  exact sets_of_some hfind q

/-- The writes at a path, seen from there. -/
theorem sets_childCompoundWriteAtPath (t : FImmutableTree κ (KeyTree κ ν)) (p q : List κ) :
    sets (FCompoundWrite.childCompoundWriteAtPath p ⟨t⟩).writeTree q = sets t (p ++ q) := by
  rw [FCompoundWrite.childCompoundWriteAtPath]
  split
  · rename_i hp
    rw [hp, List.nil_append]
  · cases hnode : FCompoundWrite.completeNodeAtPath p ⟨t⟩ with
    | some n => rw [sets_ofValue, completeNodeAtPath_spec hnode]
    | none =>
        rw [FCompoundWrite.completeNodeAtPath, Option.map_eq_none_iff] at hnode
        exact (sets_of_none hnode q).symm

/-! ### The paths of the values -/

/-- A value is on the path. -/
def Covers (t : FImmutableTree κ (KeyTree κ ν)) (p : List κ) : Prop :=
  (t.findRootMostValueAndPath p).isSome = true

/-- A write at the root covers every path. -/
theorem covers_ofValue (n : KeyTree κ ν) (p : List κ) : Covers (ofValue n) p := by
  cases p with
  | nil => rfl
  | cons k p => rfl

/-- No write covers nothing. -/
theorem not_covers_empty (p : List κ) :
    ¬ Covers (FImmutableTree.empty : FImmutableTree κ (KeyTree κ ν)) p := by
  cases p with
  | nil => exact Bool.false_ne_true
  | cons k p => exact Bool.false_ne_true

/-- Writes below the root do not cover the root. -/
theorem not_covers_nil (es : List (Σ _ : κ, FImmutableTree κ (KeyTree κ ν))) :
    ¬ Covers (.node none es) [] := Bool.false_ne_true

/-- Writes below the root cover a path when those in the child of its first key do. -/
theorem covers_cons (es : List (Σ _ : κ, FImmutableTree κ (KeyTree κ ν))) (k : κ) (p : List κ) :
    Covers (.node none es) (k :: p) ↔ Covers ((FImmutableTree.node none es).child k) p := by
  rw [Covers, Covers, findRootMostValueAndPath_cons, Option.isSome_map]

/-- What is covered after a write was added: what was covered before, and what is below the write.
-/
theorem covers_addWrite {P : KeyTree κ ν → Prop} {t : FImmutableTree κ (KeyTree κ ν)}
    (h : Pruned P t) (n : KeyTree κ ν) (p q : List κ) :
    Covers (FCompoundWrite.addWrite n p ⟨t⟩).writeTree q ↔ Covers t q ∨ p <+: q := by
  induction p generalizing t q with
  | nil =>
      rw [FCompoundWrite.addWrite, if_pos rfl]
      simp [covers_ofValue]
  | cons k p ih =>
      cases h with
      | @value v hv =>
          have hadd := addWrite_ofValue (κ := κ) v n (List.cons_ne_nil k p)
          have hcovers : Covers (.node (some v) []) q := covers_ofValue v q
          rw [ofValue] at hadd
          rw [hadd]
          simp [hcovers, covers_ofValue]
      | children hkeys hne hpruned =>
          have hnode := Pruned.children hkeys hne hpruned
          rw [addWrite_cons hnode]
          cases q with
          | nil => simp [not_covers_nil]
          | cons k' q =>
              rw [covers_cons, child_kinsert, covers_cons, List.cons_prefix_cons]
              by_cases hk : k' = k
              · rw [if_pos hk, ih (hnode.child k), hk]
                simp
              · have hk' : k ≠ k' := fun heq => hk heq.symm
                simp [hk, hk']

/-- Writes that are not empty cover some path. -/
theorem exists_covers {P : KeyTree κ ν → Prop} {t : FImmutableTree κ (KeyTree κ ν)}
    (h : Pruned P t) (hne : t.isEmpty = false) : ∃ p, Covers t p := by
  induction h with
  | @value v hv => exact ⟨[], covers_ofValue v []⟩
  | @children es hkeys hnonempty hpruned ih =>
      cases es with
      | nil => cases hne
      | cons e es =>
          obtain ⟨p, hp⟩ := ih e List.mem_cons_self (hnonempty e List.mem_cons_self)
          refine ⟨e.1 :: p, ?_⟩
          rw [covers_cons, FImmutableTree.child, FImmutableTree.children,
            List.mem_dlookup hkeys List.mem_cons_self]
          exact hp

/-- Where no value is on the path, the value there is lost if there is a write below it. -/
theorem sets_of_not_covers {P : KeyTree κ ν → Prop} {t : FImmutableTree κ (KeyTree κ ν)}
    (h : Pruned P t) {q : List κ} (hq : ¬ Covers t q) :
    sets t q = some none ∧ (∃ p, Covers t (q ++ p)) ∨
      sets t q = none ∧ ∀ p, ¬ Covers t (q ++ p) := by
  induction q generalizing t with
  | nil =>
      cases h with
      | @value v hv => exact absurd (covers_ofValue v []) hq
      | @children es hkeys hne hpruned =>
          cases es with
          | nil => exact .inr ⟨rfl, fun p => not_covers_empty p⟩
          | cons e es =>
              exact .inl ⟨rfl, exists_covers (.children hkeys hne hpruned) rfl⟩
  | cons k q ih =>
      cases h with
      | @value v hv => exact absurd (covers_ofValue v _) hq
      | children hkeys hne hpruned =>
          rw [covers_cons] at hq
          simp only [sets_cons, List.cons_append, covers_cons]
          exact ih (Pruned.child (.children hkeys hne hpruned) k) hq

/-- The data without writes are what no writes make of it. -/
theorem applyToNode_of_isEmpty {w : FCompoundWrite κ ν} (h : w.isEmpty = true)
    (n : KeyTree κ ν) : w.applyToNode n = n := by
  rw [FCompoundWrite.applyToNode, FImmutableTree.isEmpty_iff.mp h]
  rfl

/-- Where not even the root is set, there are no writes. -/
theorem isEmpty_of_sets_nil {t : FImmutableTree κ (KeyTree κ ν)} (h : sets t [] = none) :
    t.isEmpty = true := by
  obtain ⟨v, es⟩ := t
  cases v with
  | some n => cases h
  | none =>
      cases es with
      | nil => rfl
      | cons e es => cases h

/-! ### Removing writes -/

/-- The removal of a write leaves an empty tree at its path. -/
theorem writeTree_removeWriteAtPath (c : FCompoundWrite κ ν) (p : List κ) :
    (c.removeWriteAtPath p).writeTree = setTree .empty c.writeTree p := by
  rw [FCompoundWrite.removeWriteAtPath]
  split
  · rename_i hnil
    rw [hnil]
    rfl
  · rfl

/-- The children after a subtree was taken out. -/
theorem child_setTree_empty {P : KeyTree κ ν → Prop}
    {es : List (Σ _ : κ, FImmutableTree κ (KeyTree κ ν))} (h : Pruned P (.node none es))
    (k k' : κ) (p : List κ) :
    (setTree .empty (.node none es) (k :: p)).child k' =
      if k' = k then setTree .empty ((FImmutableTree.node none es).child k) p
      else (FImmutableTree.node none es).child k' := by
  cases h with
  | children hkeys hne hpruned =>
      rw [setTree]
      split
      · rename_i hempty
        rw [FImmutableTree.child, FImmutableTree.children, FImmutableTree.children]
        split
        · rename_i hk
          rw [hk, List.dlookup_kerase k hkeys, FImmutableTree.isEmpty_iff.mp hempty]
          rfl
        · rename_i hk
          rw [List.dlookup_kerase_ne hk]
          rfl
      · exact child_kinsert es k k' _

/-- A tree without a value at its root. -/
theorem eq_node_none {t : FImmutableTree κ (KeyTree κ ν)} (h : ¬ Covers t []) :
    ∃ es, t = .node none es := by
  obtain ⟨v, es⟩ := t
  cases v with
  | none => exact ⟨es, rfl⟩
  | some v => exact absurd rfl h

/-- A tree from which a subtree below the root is taken out has no value at the root. -/
theorem setTree_empty_eq_node {P : KeyTree κ ν → Prop}
    {es : List (Σ _ : κ, FImmutableTree κ (KeyTree κ ν))} (h : Pruned P (.node none es))
    (k : κ) (p : List κ) :
    ∃ es', setTree .empty (.node none es) (k :: p) = .node none es' ∧
      ∀ k', (FImmutableTree.node none es').child k' =
        if k' = k then setTree .empty ((FImmutableTree.node none es).child k) p
        else (FImmutableTree.node none es).child k' := by
  refine ⟨(setTree .empty (.node none es) (k :: p)).children, rfl, fun k' => ?_⟩
  exact child_setTree_empty h k k' p

/-- Where no value is above a path, none is above the rest of it one step down. -/
theorem not_covers_child {es : List (Σ _ : κ, FImmutableTree κ (KeyTree κ ν))} {k : κ}
    {p : List κ} (habove : ∀ r, r <+: k :: p → r ≠ k :: p → ¬ Covers (.node none es) r) :
    ∀ r, r <+: p → r ≠ p → ¬ Covers ((FImmutableTree.node none es).child k) r := by
  intro r hr hne hcovers
  refine habove (k :: r) (List.cons_prefix_cons.mpr ⟨rfl, hr⟩) ?_ ?_
  · simpa using hne
  · exact (covers_cons es k r).mpr hcovers

section Removing

variable {P : KeyTree κ ν → Prop} {t : FImmutableTree κ (KeyTree κ ν)} (h : Pruned P t)
  {p : List κ} (habove : ∀ r, r <+: p → r ≠ p → ¬ Covers t r)
include h habove

/-- What is at or below the path is no longer covered. -/
theorem covers_setTree_empty (q : List κ) :
    Covers (setTree .empty t p) q ↔ Covers t q ∧ ¬ p <+: q := by
  induction p generalizing t q with
  | nil => simp [setTree, not_covers_empty]
  | cons k p ih =>
      obtain ⟨es, rfl⟩ := eq_node_none (habove [] List.nil_prefix (List.cons_ne_nil k p).symm)
      obtain ⟨es', hes', hchild⟩ := setTree_empty_eq_node h k p
      rw [hes']
      cases q with
      | nil => simp [not_covers_nil]
      | cons k' q =>
          rw [covers_cons, covers_cons, hchild, List.cons_prefix_cons]
          by_cases hk : k' = k
          · subst hk
            have habove' := not_covers_child habove
            rw [if_pos rfl, ih (h.child k') habove']
            simp
          · have hk' : k ≠ k' := fun heq => hk heq.symm
            simp [hk, hk']

/-- What lies beside the path stays. -/
theorem sets_setTree_empty {q : List κ} (hq : Covers t q) (hp : ¬ p <+: q) :
    sets (setTree .empty t p) q = sets t q := by
  induction p generalizing t q with
  | nil => exact absurd List.nil_prefix hp
  | cons k p ih =>
      obtain ⟨es, rfl⟩ := eq_node_none (habove [] List.nil_prefix (List.cons_ne_nil k p).symm)
      obtain ⟨es', hes', hchild⟩ := setTree_empty_eq_node h k p
      rw [hes']
      cases q with
      | nil => exact absurd hq (not_covers_nil es)
      | cons k' q =>
          rw [sets_cons, hchild, sets_cons]
          by_cases hk : k' = k
          · subst hk
            have habove' := not_covers_child habove
            rw [if_pos rfl]
            refine ih (h.child k') habove' ((covers_cons es k' q).mp hq) fun hpre => hp ?_
            exact List.cons_prefix_cons.mpr ⟨rfl, hpre⟩
          · rw [if_neg hk]

end Removing

/-! ### Compound writes with any node at the root -/

/-- The writes, among which one at the root may remove everything. -/
def FCompoundWrite.Valid (w : FCompoundWrite κ ν) : Prop :=
  Pruned Solid w.writeTree ∨ ∃ v, v.WellFormed ∧ w.writeTree = ofValue v

namespace FCompoundWrite.Valid

variable {w : FCompoundWrite κ ν} (h : w.Valid)
include h

/-- **What a compound write does.** -/
theorem applyToNode_value? {n : KeyTree κ ν} (hn : n.WellFormed) (q : List κ) :
    ((w.applyToNode n).getChild q).value? = (sets w.writeTree q).getD (n.getChild q).value? := by
  rcases h with hpruned | ⟨v, hv, htree⟩
  · exact applySubtreeWrite_value? hpruned [] hn q
  · rw [applyToNode, htree, ofValue, applySubtreeWrite, updateChild_nil]
    exact congrArg (Option.getD · _) (sets_ofValue v q).symm

/-- A valid compound write after a write was added sets what the write sets, and what it set before
elsewhere. -/
theorem sets_addWrite {n : KeyTree κ ν} {p : List κ} (hne : n.isEmpty = false ∨ p = [])
    (q : List κ) :
    sets (w.addWrite n p).writeTree q = (setsAt p (ofValue n) q).or (sets w.writeTree q) := by
  obtain ⟨t⟩ := w
  rcases h with hpruned | ⟨v, hv, rfl⟩
  · exact FirebaseLogin.sets_addWrite hpruned hne q
  · exact sets_addWrite_ofValue hv hne q

/-- A compound write stays valid when a write is added. -/
theorem addWrite {n : KeyTree κ ν} (hn : n.WellFormed) {p : List κ}
    (hne : n.isEmpty = false ∨ p = []) : (w.addWrite n p).Valid := by
  obtain ⟨t⟩ := w
  by_cases hp : p = []
  · subst hp
    rw [FCompoundWrite.addWrite, if_pos rfl]
    exact .inr ⟨n, hn, rfl⟩
  · have hsolid : Solid n := ⟨hn, hne.resolve_right hp⟩
    rcases h with hpruned | ⟨v, hv, rfl⟩
    · exact .inl (pruned_addWrite hpruned hsolid p).1
    · rw [addWrite_ofValue v n hp]
      exact .inr ⟨_, hv.updateChild p hn, rfl⟩

end FCompoundWrite.Valid

/-- The nearest write of a valid tree is a well-formed node. -/
theorem wellFormed_of_findRootMostValueAndPath {t : FImmutableTree κ (KeyTree κ ν)}
    (h : Pruned Solid t) {p r : List κ} {v : KeyTree κ ν}
    (hfind : t.findRootMostValueAndPath p = some (r, v)) : v.WellFormed := by
  induction p generalizing t r with
  | nil =>
      cases h with
      | value hv =>
          obtain ⟨-, rfl⟩ := Prod.mk.inj (Option.some.inj hfind)
          exact hv.1
      | children => cases hfind
  | cons k p ih =>
      cases h with
      | value hv =>
          obtain ⟨-, rfl⟩ := Prod.mk.inj (Option.some.inj hfind)
          exact hv.1
      | children hkeys hne hpruned =>
          rw [findRootMostValueAndPath_cons, Option.map_eq_some_iff] at hfind
          obtain ⟨⟨r', v'⟩, hfind, hpair⟩ := hfind
          obtain ⟨-, rfl⟩ := Prod.mk.inj hpair
          exact ih (Pruned.child (.children hkeys hne hpruned) k) hfind

/-- The writes at a path are valid. -/
theorem valid_childCompoundWriteAtPath {t : FImmutableTree κ (KeyTree κ ν)} (h : Pruned Solid t)
    (p : List κ) : (FCompoundWrite.childCompoundWriteAtPath p ⟨t⟩).Valid := by
  rw [FCompoundWrite.childCompoundWriteAtPath]
  split
  · exact .inl h
  · cases hnode : FCompoundWrite.completeNodeAtPath p ⟨t⟩ with
    | none => exact .inl (pruned_subtreeAtPath h p)
    | some n =>
        rw [FCompoundWrite.completeNodeAtPath, Option.map_eq_some_iff] at hnode
        obtain ⟨⟨r, v⟩, hfind, rfl⟩ := hnode
        exact .inr ⟨_, (wellFormed_of_findRootMostValueAndPath h hfind).getChild _, rfl⟩

end Sets

end FirebaseLogin
