import FirebaseLogin.TreeSortedDictionary
import Mathlib.Data.List.Induction
import Mathlib.Data.List.Sort

/-!
# The Immutable Sorted Dictionary

`FImmutableSortedDictionary.m` with its two forms: up to 25 entries it is a sorted array
(`FArraySortedDictionary.m`) and beyond that a tree (`FTreeSortedDictionary.m`). An insertion into
a full array builds a tree from its entries; a tree that has lost its entries stays a tree.

What the dictionary is for is a map over keys up to their comparison, read off the operations
that led to it (`lastValue`).

## Main results

* `insertKey_spec`, `removeKey_spec`: one operation on either form.
* `afterOperations_spec`: **after any sequence of operations the dictionary is the map of
  their last values, in order and balanced.**
* `afterOperations_enumerators`: the enumerators of the two forms agree, but for the reverse one
  without a start key.
* `fromDictionary_spec`: a dictionary built from entries sorts them.
-/

namespace FirebaseLogin

open SortedEntries

/-- The most entries an array holds. -/
def sortedDictionaryArrayToRBTreeSizeThreshold : Nat := 25

/-- A dictionary; its comparator is an argument of the operations. -/
inductive FImmutableSortedDictionary (κ ν : Type) where
  | array (entries : List (κ × ν))
  | tree (root : FLLRBNode κ ν)

namespace FImmutableSortedDictionary

variable {κ ν : Type} (cmp : κ → κ → Ordering)

/-- `dictionaryWithComparator:`, which is an array. -/
def dictionaryWithComparator : FImmutableSortedDictionary κ ν := .array []

/-- The entries in the order of an enumeration. -/
def entries : FImmutableSortedDictionary κ ν → List (κ × ν)
  | array es => es
  | tree root => root.entries

/-! ### Construction -/

/-- Each key is followed by a larger one; the source raises an exception otherwise. -/
def keysAscend : List (κ × ν) → Bool
  | a :: b :: es => cmp a.1 b.1 = .lt && keysAscend (b :: es)
  | _ => true

/-- The entries sorted by their keys. -/
def sortedKeyList (dictionary : List (κ × ν)) : List (κ × ν) :=
  dictionary.mergeSort fun a b => cmp a.1 b.1 ≠ .gt

/-- `fromDictionary` of the tree; none is the exception on two keys that compare as the same. -/
def treeFromDictionary (dictionary : List (κ × ν)) : Option (FImmutableSortedDictionary κ ν) :=
  let keyList := sortedKeyList cmp dictionary
  if keysAscend cmp keyList then some (.tree (FLLRBNode.rootFrom12List keyList)) else none

/-- `fromDictionary` of the array, with the same exception. -/
def arrayFromDictionary (dictionary : List (κ × ν)) : Option (FImmutableSortedDictionary κ ν) :=
  let keyList := sortedKeyList cmp dictionary
  if keysAscend cmp keyList then some (.array keyList) else none

/-- `fromDictionary:withComparator:`, in the form that fits the number of the entries. -/
def fromDictionary (dictionary : List (κ × ν)) : Option (FImmutableSortedDictionary κ ν) :=
  if dictionary.length ≤ sortedDictionaryArrayToRBTreeSizeThreshold then
    arrayFromDictionary cmp dictionary
  else treeFromDictionary cmp dictionary

/-! ### The array -/

/-- The position of a key; the search ends at the first larger one. -/
def findKey (key : κ) : List (κ × ν) → Option Nat
  | [] => none
  | e :: es =>
      match cmp key e.1 with
      | .eq => some 0
      | .lt => none
      | .gt => (findKey key es).map (· + 1)

/-- `findInsertPositionForKey:`: the number of the keys before it. -/
def findInsertPositionForKey (key : κ) : List (κ × ν) → Nat
  | [] => 0
  | e :: es => if cmp e.1 key = .lt then findInsertPositionForKey key es + 1 else 0

/-! ### The operations -/

/-- `get:`. -/
def get (key : κ) : FImmutableSortedDictionary κ ν → Option ν
  | array es => (findKey cmp key es).bind fun pos => es[pos]?.map Prod.snd
  | tree root => root.get cmp key

/-- `insertKey:withValue:`, which makes a tree of a full array. -/
def insertKey (key : κ) (value : ν) :
    FImmutableSortedDictionary κ ν → Option (FImmutableSortedDictionary κ ν)
  | array es =>
      match findKey cmp key es with
      | none =>
          if es.length ≥ sortedDictionaryArrayToRBTreeSizeThreshold then
            treeFromDictionary cmp (es ++ [(key, value)])
          else some (.array (es.insertIdx (findInsertPositionForKey cmp key es) (key, value)))
      | some pos => some (.array (es.set pos (key, value)))
  | tree root => some (.tree ((root.insertKey cmp key value).copyWithColor .black))

/-- `removeKey:`, which keeps the form. -/
def removeKey (key : κ) : FImmutableSortedDictionary κ ν → FImmutableSortedDictionary κ ν
  | array es =>
      match findKey cmp key es with
      | none => .array es
      | some pos => .array (es.eraseIdx pos)
  | tree root =>
      if (root.get cmp key).isSome then .tree ((root.remove cmp key).copyWithColor .black)
      else .tree root

/-- `getPredecessorKey`; the outer none is the exception on a missing key. -/
def getPredecessorKey (key : κ) : FImmutableSortedDictionary κ ν → Option (Option κ)
  | array es => (findKey cmp key es).map fun pos =>
      if pos = 0 then none else es[pos - 1]?.map Prod.fst
  | tree root => root.getPredecessorKey cmp key

/-- `keyEnumerator`. -/
def keyEnumerator : FImmutableSortedDictionary κ ν → List κ
  | array es => es.map Prod.fst
  | tree root => root.keyEnumerator cmp

/-- `keyEnumeratorFrom:`. -/
def keyEnumeratorFrom (startKey : κ) : FImmutableSortedDictionary κ ν → List κ
  | array es => (es.map Prod.fst).drop (findInsertPositionForKey cmp startKey es)
  | tree root => root.keyEnumeratorFrom cmp startKey

/-- `reverseKeyEnumerator`. -/
def reverseKeyEnumerator : FImmutableSortedDictionary κ ν → List κ
  | array es => (es.map Prod.fst).reverse
  | tree root => root.reverseKeyEnumerator cmp

/-- The reverse enumerator goes down from the key at the insert position if it is the start
key, and from the one before it otherwise. -/
def reverseKeyEnumeratorFrom (startKey : κ) : FImmutableSortedDictionary κ ν → List κ
  | array es =>
      let startPos := findInsertPositionForKey cmp startKey es
      let atStart := (es[startPos]?).any fun e => cmp e.1 startKey = .eq
      ((es.map Prod.fst).take (if atStart then startPos + 1 else startPos)).reverse
  | tree root => root.reverseKeyEnumeratorFrom cmp startKey

/-! ### Whole runs -/

/-- The operations that make another dictionary. -/
inductive Operation (κ ν : Type) where
  | insertKey (key : κ) (value : ν)
  | removeKey (key : κ)

/-- The dictionary after an operation. -/
def perform (d : FImmutableSortedDictionary κ ν) :
    Operation κ ν → Option (FImmutableSortedDictionary κ ν)
  | .insertKey key value => insertKey cmp key value d
  | .removeKey key => some (removeKey cmp key d)

/-- The dictionary after a sequence of operations on the empty one. -/
def afterOperations (ops : List (Operation κ ν)) : Option (FImmutableSortedDictionary κ ν) :=
  ops.foldlM (perform cmp) dictionaryWithComparator

/-- The value that a sequence of operations leaves under a key. -/
def lastValue (key : κ) (ops : List (Operation κ ν)) : Option ν :=
  ops.foldl (fun value op =>
    match op with
    | .insertKey k v => if cmp key k = .eq then some v else value
    | .removeKey k => if cmp key k = .eq then none else value) none

/-- A dictionary as the operations leave it. -/
def Valid : FImmutableSortedDictionary κ ν → Prop
  | array es => Ascending cmp es ∧ es.length ≤ sortedDictionaryArrayToRBTreeSizeThreshold
  | tree root => Ascending cmp root.entries ∧ ∃ d, FLLRBNode.Balanced .black d root

variable {cmp} [Std.TransCmp cmp] {key : κ} {value : ν} {es : List (κ × ν)}
  {d : FImmutableSortedDictionary κ ν}

omit [Std.TransCmp cmp] in
/-- The entries of a dictionary ascend. -/
theorem Valid.ascending (h : Valid cmp d) : Ascending cmp d.entries := by
  cases d with
  | array es | tree root => exact h.1

/-! ### The array -/

/-- A key that is not found is not that of an entry. -/
theorem findKey_eq_none (h : Ascending cmp es) (hnone : findKey cmp key es = none) :
    ∀ e ∈ es, cmp key e.1 ≠ .eq := by
  induction es with
  | nil => simp
  | cons x es ih =>
      obtain ⟨hx, hes⟩ := List.pairwise_cons.mp h
      rw [findKey] at hnone
      split at hnone
      · cases hnone
      · rename_i hlt
        intro e he
        rcases List.mem_cons.mp he with rfl | he
        · exact ne_eq_of_lt hlt
        · exact ne_eq_of_lt (Std.TransCmp.lt_trans hlt (hx e he))
      · rename_i hgt
        intro e he
        rcases List.mem_cons.mp he with rfl | he
        · simp [hgt]
        · exact ih hes (Option.map_eq_none_iff.mp hnone) e he

/-- The search in an array finds what is in it. -/
theorem get_array (h : Ascending cmp es) :
    ((findKey cmp key es).bind fun pos => es[pos]?.map Prod.snd) = lookup cmp key es := by
  induction es with
  | nil => rfl
  | cons x es ih =>
      obtain ⟨hx, hes⟩ := List.pairwise_cons.mp h
      rw [findKey, lookup]
      split
      · rename_i heq
        simp [heq]
      · rename_i hlt
        rw [if_neg (ne_eq_of_lt hlt), lookup_eq_none]
        · rfl
        · intro e he
          exact ne_eq_of_lt (Std.TransCmp.lt_trans hlt (hx e he))
      · rename_i hgt
        rw [if_neg (by simp [hgt]), ← ih hes, Option.bind_map]
        rfl

/-- An insertion at the insert position. -/
theorem insertIdx_eq_insert (hnone : findKey cmp key es = none) :
    es.insertIdx (findInsertPositionForKey cmp key es) (key, value) =
      insert cmp (key, value) es := by
  induction es with
  | nil => rfl
  | cons x es ih =>
      rw [findKey] at hnone
      rw [findInsertPositionForKey, SortedEntries.insert]
      split at hnone
      · cases hnone
      · rename_i hlt
        rw [if_neg (by simp [Std.OrientedCmp.gt_of_lt hlt]), hlt]
        rfl
      · rename_i hgt
        rw [if_pos (Std.OrientedCmp.lt_of_gt hgt), hgt, List.insertIdx_succ_cons,
          ih (Option.map_eq_none_iff.mp hnone)]

omit [Std.TransCmp cmp] in
/-- A replacement at the position of the key. -/
theorem set_eq_insert {pos : Nat} (hsome : findKey cmp key es = some pos) :
    es.set pos (key, value) = insert cmp (key, value) es := by
  induction es generalizing pos with
  | nil => cases hsome
  | cons x es ih =>
      rw [findKey] at hsome
      rw [SortedEntries.insert]
      split at hsome
      · rename_i heq
        obtain rfl := Option.some.inj hsome
        simp [heq]
      · cases hsome
      · rename_i hgt
        obtain ⟨pos', hpos, rfl⟩ := Option.map_eq_some_iff.mp hsome
        simp only [hgt, List.set_cons_succ, ih hpos]

/-- A removal at the position of the key. -/
theorem eraseIdx_eq_erase {pos : Nat} (h : Ascending cmp es)
    (hsome : findKey cmp key es = some pos) : es.eraseIdx pos = erase cmp key es := by
  induction es generalizing pos with
  | nil => cases hsome
  | cons x es ih =>
      obtain ⟨hx, hes⟩ := List.pairwise_cons.mp h
      rw [findKey] at hsome
      split at hsome
      · rename_i heq
        obtain rfl := Option.some.inj hsome
        exact (erase_of_eq (l := []) h heq).symm
      · cases hsome
      · rename_i hgt
        obtain ⟨pos', hpos, rfl⟩ := Option.map_eq_some_iff.mp hsome
        rw [List.eraseIdx_cons_succ, ih hes hpos]
        exact (erase_of_gt (l := []) h hgt).symm

/-- The entries from the insert position on. -/
theorem drop_findInsertPositionForKey (h : Ascending cmp es) :
    es.drop (findInsertPositionForKey cmp key es) =
      es.filter fun e => decide (cmp e.1 key ≠ .lt) := by
  induction es with
  | nil => rfl
  | cons x es ih =>
      obtain ⟨hx, hes⟩ := List.pairwise_cons.mp h
      rw [findInsertPositionForKey]
      by_cases hlt : cmp x.1 key = .lt
      · rw [if_pos hlt, List.drop_succ_cons, ih hes, List.filter_cons_of_neg (by simp [hlt])]
      · rw [if_neg hlt, List.drop_zero, eq_comm, List.filter_eq_self]
        intro e he
        refine decide_eq_true fun hk => hlt ?_
        rcases List.mem_cons.mp he with rfl | he
        · exact hk
        · exact Std.TransCmp.lt_trans (hx e he) hk

/-- The entries up to the start of a reverse enumeration. -/
theorem take_startPos (h : Ascending cmp es) :
    es.take (if (es[findInsertPositionForKey cmp key es]?).any fun e => cmp e.1 key = .eq
        then findInsertPositionForKey cmp key es + 1 else findInsertPositionForKey cmp key es) =
      es.filter fun e => decide (cmp e.1 key ≠ .gt) := by
  induction es with
  | nil => rfl
  | cons x es ih =>
      obtain ⟨hx, hes⟩ := List.pairwise_cons.mp h
      rw [findInsertPositionForKey]
      have hrest : cmp x.1 key ≠ .lt → es.filter (fun e => decide (cmp e.1 key ≠ .gt)) = [] := by
        intro hk
        rw [List.filter_eq_nil_iff]
        intro e he
        have hgt : cmp e.1 key = .gt := by
          refine Std.TransCmp.gt_of_gt_of_isGE (Std.OrientedCmp.gt_of_lt (hx e he)) ?_
          cases hcmp : cmp x.1 key with
          | lt => exact absurd hcmp hk
          | eq | gt => rfl
        simp [hgt]
      cases hk : cmp x.1 key with
      | lt =>
          rw [if_pos rfl, List.getElem?_cons_succ, List.filter_cons_of_pos (by simp [hk]),
            ← ih hes]
          split
          · rw [List.take_succ_cons]
          · rw [List.take_succ_cons]
      | eq =>
          rw [List.filter_cons_of_pos (by simp [hk]), hrest (by simp [hk])]
          simp [hk]
      | gt =>
          rw [List.filter_cons_of_neg (by simp [hk]), hrest (by simp [hk])]
          simp [hk]

/-- The entries before the position of a key. -/
theorem take_findKey {pos : Nat} (h : Ascending cmp es) (hsome : findKey cmp key es = some pos) :
    pos < es.length ∧ es.take pos = es.filter fun e => decide (cmp key e.1 = .gt) := by
  induction es generalizing pos with
  | nil => cases hsome
  | cons x es ih =>
      obtain ⟨hx, hes⟩ := List.pairwise_cons.mp h
      rw [findKey] at hsome
      split at hsome
      · rename_i heq
        obtain rfl := Option.some.inj hsome
        refine ⟨Nat.succ_pos _, ?_⟩
        rw [List.take_zero, eq_comm, List.filter_eq_nil_iff]
        intro e he
        rcases List.mem_cons.mp he with rfl | he
        · simp [heq]
        · simp [Std.TransCmp.congr_left heq, hx e he]
      · cases hsome
      · rename_i hgt
        obtain ⟨pos', hpos, rfl⟩ := Option.map_eq_some_iff.mp hsome
        obtain ⟨hlt, htake⟩ := ih hes hpos
        refine ⟨Nat.succ_lt_succ hlt, ?_⟩
        rw [List.take_succ_cons, htake, List.filter_cons_of_pos (by simp [hgt])]

/-- The predecessor in an array. -/
theorem getPredecessorKey_array (h : Ascending cmp es) :
    getPredecessorKey cmp key (.array es) = (lookup cmp key es).map fun _ =>
      (es.filter fun e => decide (cmp key e.1 = .gt)).getLast?.map Prod.fst := by
  rw [getPredecessorKey, ← get_array h]
  cases hfind : findKey cmp key es with
  | none => rfl
  | some pos =>
      obtain ⟨hlt, htake⟩ := take_findKey h hfind
      rw [Option.map_some, Option.bind_some, List.getElem?_eq_getElem hlt, Option.map_some,
        Option.map_some, ← htake, List.getLast?_take]
      by_cases hpos : pos = 0
      · simp [hpos]
      · have hpred : pos - 1 < es.length := by omega
        simp [hpos, List.getElem?_eq_getElem hpred]

/-! ### Construction -/

/-- The check before the construction is that the entries ascend. -/
theorem keysAscend_iff (es : List (κ × ν)) :
    keysAscend cmp es = true ↔ Ascending cmp es := by
  induction es with
  | nil => simp [keysAscend, Ascending]
  | cons a es ih =>
      cases es with
      | nil => simp [keysAscend, Ascending]
      | cons b es =>
          rw [keysAscend, Bool.and_eq_true, decide_eq_true_eq, ih]
          constructor
          · rintro ⟨hab, hes⟩
            refine List.pairwise_cons.mpr ⟨?_, hes⟩
            intro e he
            rcases List.mem_cons.mp he with rfl | he
            · exact hab
            · exact Std.TransCmp.lt_trans hab (List.rel_of_pairwise_cons hes he)
          · intro h
            exact ⟨List.rel_of_pairwise_cons h List.mem_cons_self, (List.pairwise_cons.mp h).2⟩

/-- Sorted entries are determined by what they are. -/
theorem Ascending.eq_of_perm {es' : List (κ × ν)} (h : Ascending cmp es)
    (h' : Ascending cmp es') (hperm : es.Perm es') : es = es' := by
  refine List.Perm.eq_of_pairwise ?_ h h' hperm
  intro a b _ _ hab hba
  rw [Std.OrientedCmp.gt_of_lt hba] at hab
  cases hab

/-- The sorted entries are the only ascending ones. -/
theorem sortedKeyList_eq {sorted : List (κ × ν)} (h : Ascending cmp sorted)
    (hperm : sorted.Perm es) : sortedKeyList cmp es = sorted := by
  have htotal : ∀ a b : κ × ν,
      (decide (cmp a.1 b.1 ≠ .gt) || decide (cmp b.1 a.1 ≠ .gt)) = true := by
    intro a b
    cases hcmp : cmp a.1 b.1 with
    | lt | eq => rfl
    | gt => simp [Std.OrientedCmp.lt_of_gt hcmp]
  have htrans : ∀ a b c : κ × ν, decide (cmp a.1 b.1 ≠ .gt) = true →
      decide (cmp b.1 c.1 ≠ .gt) = true → decide (cmp a.1 c.1 ≠ .gt) = true := by
    intro a b c hab hbc
    rw [decide_eq_true_eq] at *
    have hle : (cmp a.1 c.1).isLE := Std.TransCmp.isLE_trans (b := b.1)
      (Ordering.isLE_iff_ne_gt.mpr hab) (Ordering.isLE_iff_ne_gt.mpr hbc)
    exact Ordering.isLE_iff_ne_gt.mp hle
  have hsorted := List.pairwise_mergeSort htrans htotal es
  have hp : (sortedKeyList cmp es).Perm sorted := (List.mergeSort_perm es _).trans hperm.symm
  refine Ascending.eq_of_perm ?_ h hp
  -- the sorted list is weakly in order, and no two of its keys compare as the same
  have hne : (sortedKeyList cmp es).Pairwise fun a b => cmp a.1 b.1 ≠ .eq := by
    have hsymm : ∀ {a b : κ × ν}, cmp a.1 b.1 ≠ .eq → cmp b.1 a.1 ≠ .eq :=
      fun hab hba => hab (Std.OrientedCmp.eq_symm hba)
    refine (List.Perm.pairwise_iff hsymm hp).mpr ?_
    exact List.Pairwise.imp (fun hlt => ne_eq_of_lt hlt) h
  refine List.Pairwise.imp₂ ?_ hsorted hne
  intro a b hle hab
  cases hcmp : cmp a.1 b.1 with
  | lt => rfl
  | eq => exact absurd hcmp hab
  | gt => simp [hcmp] at hle

/-- Entries whose keys compare as different make a tree of the sorted entries. -/
theorem treeFromDictionary_eq {sorted : List (κ × ν)} (h : Ascending cmp sorted)
    (hperm : sorted.Perm es) :
    treeFromDictionary cmp es = some (.tree (FLLRBNode.rootFrom12List sorted)) := by
  rw [treeFromDictionary, sortedKeyList_eq h hperm, if_pos ((keysAscend_iff sorted).mpr h)]

/-- **Construction.** Entries whose keys compare as different make a dictionary of the sorted
entries. -/
theorem fromDictionary_spec {sorted : List (κ × ν)} (h : Ascending cmp sorted)
    (hperm : sorted.Perm es) :
    ∃ d, fromDictionary cmp es = some d ∧ d.entries = sorted := by
  rw [fromDictionary]
  split
  · refine ⟨.array sorted, ?_, rfl⟩
    rw [arrayFromDictionary, sortedKeyList_eq h hperm, if_pos ((keysAscend_iff sorted).mpr h)]
  · exact ⟨_, treeFromDictionary_eq h hperm, (FLLRBNode.rootFrom12List_spec sorted).2⟩

/-! ### One operation -/

/-- What `get:` returns is the entry of the key. -/
theorem get_eq_lookup (h : Valid cmp d) (key : κ) : get cmp key d = lookup cmp key d.entries := by
  cases d with
  | array es => exact get_array h.1
  | tree root => exact FLLRBNode.get_eq_lookup h.1 key

/-- **Insertion**, into either form and from the one into the other. -/
theorem insertKey_spec (h : Valid cmp d) (key : κ) (value : ν) :
    ∃ d' key', insertKey cmp key value d = some d' ∧ Valid cmp d' ∧ cmp key' key = .eq ∧
      d'.entries = insert cmp (key', value) d.entries := by
  cases d with
  | tree root =>
      obtain ⟨hasc, depth, hb⟩ := h
      obtain ⟨hb', hentries⟩ := FLLRBNode.insertKey_spec hb hasc key value
      refine ⟨_, keptKey cmp key root.entries, rfl, ⟨?_, hb'⟩, cmp_keptKey key _, hentries⟩
      rw [hentries]
      exact hasc.insert _
  | array es =>
      obtain ⟨hasc, hlength⟩ := h
      cases hfind : findKey cmp key es with
      | some pos =>
          simp only [insertKey, hfind]
          refine ⟨_, key, rfl, ⟨?_, ?_⟩, Std.ReflCmp.compare_self, set_eq_insert hfind⟩
          · rw [set_eq_insert hfind]
            exact hasc.insert _
          · rw [List.length_set]
            exact hlength
      | none =>
          have hne := findKey_eq_none hasc hfind
          simp only [insertKey, hfind]
          by_cases hfull : es.length ≥ sortedDictionaryArrayToRBTreeSizeThreshold
          · -- the full array becomes a tree
            rw [if_pos hfull]
            have hperm : (insert cmp (key, value) es).Perm (es ++ [(key, value)]) :=
              (insert_perm hne).trans (List.perm_append_singleton _ _).symm
            obtain ⟨hb, hentries⟩ :=
              FLLRBNode.rootFrom12List_spec (insert cmp (key, value) es)
            refine ⟨_, key, treeFromDictionary_eq (hasc.insert _) hperm, ⟨?_, hb⟩,
              Std.ReflCmp.compare_self, hentries⟩
            rw [hentries]
            exact hasc.insert _
          · rw [if_neg hfull]
            refine ⟨_, key, rfl, ⟨?_, ?_⟩, Std.ReflCmp.compare_self, insertIdx_eq_insert hfind⟩
            · rw [insertIdx_eq_insert hfind]
              exact hasc.insert _
            · rw [insertIdx_eq_insert hfind, (insert_perm hne).length_eq, List.length_cons]
              omega

/-- **Removal**, from either form. -/
theorem removeKey_spec (h : Valid cmp d) (key : κ) :
    Valid cmp (removeKey cmp key d) ∧
      (removeKey cmp key d).entries = erase cmp key d.entries := by
  cases d with
  | tree root =>
      obtain ⟨hasc, depth, hb⟩ := h
      rw [removeKey]
      split
      · obtain ⟨hb', hentries⟩ := FLLRBNode.remove_spec hb hasc key
        refine ⟨⟨?_, hb'⟩, hentries⟩
        rw [hentries]
        exact hasc.erase _
      · rename_i hnone
        refine ⟨⟨hasc, depth, hb⟩, (erase_eq_self ?_).symm⟩
        rw [FLLRBNode.get_eq_lookup hasc, Option.not_isSome_iff_eq_none] at hnone
        exact ne_of_lookup_eq_none hnone
  | array es =>
      obtain ⟨hasc, hlength⟩ := h
      rw [removeKey]
      cases hfind : findKey cmp key es with
      | none =>
          exact ⟨⟨hasc, hlength⟩, (erase_eq_self (findKey_eq_none hasc hfind)).symm⟩
      | some pos =>
          have herase := eraseIdx_eq_erase hasc hfind
          refine ⟨⟨?_, ?_⟩, herase⟩
          · rw [herase]
            exact hasc.erase _
          · exact (List.eraseIdx_sublist es pos).length_le.trans hlength

/-! ### Whole runs -/

omit [Std.TransCmp cmp] in
/-- The value after one more operation. -/
theorem lastValue_concat (key : κ) (ops : List (Operation κ ν)) (op : Operation κ ν) :
    lastValue cmp key (ops ++ [op]) =
      match op with
      | .insertKey k v => if cmp key k = .eq then some v else lastValue cmp key ops
      | .removeKey k => if cmp key k = .eq then none else lastValue cmp key ops := by
  rw [lastValue, List.foldl_append]
  rfl

/-- The dictionary after any sequence of operations, as a map. -/
theorem valid_afterOperations (cmp : κ → κ → Ordering) [Std.TransCmp cmp]
    (ops : List (Operation κ ν)) :
    ∃ d, afterOperations cmp ops = some d ∧ Valid cmp d ∧
      ∀ key, lookup cmp key d.entries = lastValue cmp key ops := by
  induction ops using List.reverseRecOn with
  | nil => exact ⟨_, rfl, ⟨List.Pairwise.nil, Nat.zero_le _⟩, fun _ => rfl⟩
  | append_singleton ops op ih =>
      obtain ⟨d, hd, hvalid, hlookup⟩ := ih
      have hstep : afterOperations cmp (ops ++ [op]) = perform cmp d op := by
        rw [afterOperations, List.foldlM_append, ← afterOperations, hd]
        simp
      rw [hstep]
      cases op with
      | insertKey k v =>
          obtain ⟨d', k', hd', hvalid', hk', hentries⟩ := insertKey_spec hvalid k v
          refine ⟨d', hd', hvalid', fun key => ?_⟩
          rw [hentries, lookup_insert hvalid.ascending, lastValue_concat, hlookup,
            Std.TransCmp.congr_right hk']
      | removeKey k =>
          obtain ⟨hvalid', hentries⟩ := removeKey_spec hvalid k
          refine ⟨_, rfl, hvalid', fun key => ?_⟩
          rw [hentries, lookup_erase, lastValue_concat, hlookup]

/-- **Whole runs.** No sequence of insertions and removals raises an exception, in either form
and across the change from the one to the other. The dictionary that it leaves is in order,
holds under each key the value last put there, and is small enough for an array or passes the
tree's own check with the depth of a balanced tree. -/
theorem afterOperations_spec (cmp : κ → κ → Ordering) [Std.TransCmp cmp]
    (ops : List (Operation κ ν)) :
    ∃ d, afterOperations cmp ops = some d ∧ Ascending cmp d.entries ∧
      (∀ key, get cmp key d = lastValue cmp key ops) ∧
      match d with
      | .array es => es.length ≤ sortedDictionaryArrayToRBTreeSizeThreshold
      | .tree root => ∃ depth, root.check = some depth ∧ 2 ^ depth ≤ root.count + 1 := by
  obtain ⟨d, hd, hvalid, hlookup⟩ := valid_afterOperations cmp ops
  refine ⟨d, hd, hvalid.ascending, fun key => ?_, ?_⟩
  · rw [get_eq_lookup hvalid, hlookup]
  · cases d with
    | array es => exact hvalid.2
    | tree root =>
        obtain ⟨-, depth, hb⟩ := hvalid
        exact ⟨depth, (FLLRBNode.check_eq_some_iff root depth).mpr ⟨_, hb⟩, hb.two_pow_le_count⟩

/-- Thirty insertions and a removal, beyond what an array holds. -/
theorem afterOperations_thirty :
    ∃ d, afterOperations compare ((List.range 30).map (fun i => Operation.insertKey i (i * i)) ++
        [.removeKey 7]) = some d ∧ get compare 29 d = some 841 ∧ get compare 7 d = none := by
  obtain ⟨d, hd, -, hget, -⟩ := afterOperations_spec compare
    ((List.range 30).map (fun i => Operation.insertKey i (i * i)) ++ [.removeKey 7])
  refine ⟨d, hd, ?_, ?_⟩
  · rw [hget]
    decide
  · rw [hget]
    decide

/-- **Enumeration after whole runs.** The keys under which the operations leave a value stand in
ascending order, and both forms enumerate them alike from a start key on, from a start key back
and at a predecessor. In reverse without a start key only an array gives them: a tree gives
none. -/
theorem afterOperations_enumerators (cmp : κ → κ → Ordering) [Std.TransCmp cmp]
    (ops : List (Operation κ ν)) (d : FImmutableSortedDictionary κ ν)
    (hd : afterOperations cmp ops = some d) :
    ∃ keys : List κ, keys.Pairwise (fun a b => cmp a b = .lt) ∧
      (∀ key, (∃ k ∈ keys, cmp key k = .eq) ↔ (lastValue cmp key ops).isSome = true) ∧
      keyEnumerator cmp d = keys ∧
      (∀ startKey, keyEnumeratorFrom cmp startKey d =
        keys.filter fun k => decide (cmp k startKey ≠ .lt)) ∧
      (∀ startKey, reverseKeyEnumeratorFrom cmp startKey d =
        (keys.filter fun k => decide (cmp k startKey ≠ .gt)).reverse) ∧
      (∀ key, getPredecessorKey cmp key d = (lastValue cmp key ops).map fun _ =>
        (keys.filter fun k => decide (cmp key k = .gt)).getLast?) ∧
      reverseKeyEnumerator cmp d =
        match d with
        | .array _ => keys.reverse
        | .tree _ => [] := by
  obtain ⟨d', hd', hvalid, hlookup⟩ := valid_afterOperations cmp ops
  obtain rfl : d' = d := Option.some.inj (hd'.symm.trans hd)
  have hpred : ∀ key (es : List (κ × ν)),
      (es.filter fun e => decide (cmp key e.1 = .gt)).getLast?.map Prod.fst =
        ((es.map Prod.fst).filter fun k => decide (cmp key k = .gt)).getLast? := by
    intro key es
    rw [List.filter_map, List.getLast?_map]
    rfl
  refine ⟨d'.entries.map Prod.fst, List.pairwise_map.mpr hvalid.ascending, ?_, ?_⟩
  · intro key
    rw [← hlookup, lookup_isSome_iff]
    simp only [List.mem_map, exists_exists_and_eq_and]
  cases d' with
  | array es =>
      obtain ⟨hasc, -⟩ := hvalid
      refine ⟨rfl, fun startKey => ?_, fun startKey => ?_, fun key => ?_, rfl⟩
      · rw [keyEnumeratorFrom, ← List.map_drop, drop_findInsertPositionForKey hasc, entries,
          List.filter_map]
        rfl
      · rw [reverseKeyEnumeratorFrom, ← List.map_take, take_startPos hasc, entries,
          List.filter_map]
        rfl
      · rw [getPredecessorKey_array hasc, ← hlookup]
        simp only [hpred, entries]
  | tree root =>
      obtain ⟨hasc, -⟩ := hvalid
      refine ⟨FLLRBNode.keyEnumerator_eq root, FLLRBNode.keyEnumeratorFrom_eq hasc,
        FLLRBNode.reverseKeyEnumeratorFrom_eq hasc, fun key => ?_,
        FLLRBNode.reverseKeyEnumerator_eq root⟩
      rw [getPredecessorKey, FLLRBNode.getPredecessorKey, FLLRBNode.getPredecessorKeyFrom_eq hasc,
        ← hlookup]
      simp only [hpred, entries, Option.or_none]

/-- Insertions of the squares of the numbers below a bound. -/
def insertSquares (n : Nat) : List (Operation Nat Nat) :=
  (List.range n).map fun i => .insertKey i (i * i)

/-- The squares are the values of their numbers. -/
theorem lastValue_insertSquares (n key : Nat) :
    lastValue compare key (insertSquares n) = if key < n then some (key * key) else none := by
  induction n with
  | zero => rfl
  | succ n ih =>
      rw [insertSquares, List.range_succ, List.map_append, List.map_singleton, lastValue_concat,
        ← insertSquares, ih]
      rcases Nat.lt_trichotomy key n with h | rfl | h
      · simp [Nat.ne_of_lt h, h, Nat.lt_succ_of_lt h]
      · simp
      · have hnot : ¬ key < n + 1 := by omega
        simp [Nat.ne_of_gt h, Nat.lt_asymm h, hnot]

/-- Thirty keys, which are in a tree: it enumerates them, also from a start key on and from a
start key back, and nothing in reverse without one. -/
theorem afterOperations_enumerators_thirty :
    ∃ root : FLLRBNode Nat Nat, afterOperations compare (insertSquares 30) = some (.tree root) ∧
      keyEnumerator compare (.tree root) = List.range 30 ∧
      keyEnumeratorFrom compare 27 (.tree root) = [27, 28, 29] ∧
      reverseKeyEnumeratorFrom compare 2 (.tree root) = [2, 1, 0] ∧
      reverseKeyEnumerator compare (.tree root) = [] := by
  obtain ⟨d, hd, hvalid, -⟩ := valid_afterOperations compare (insertSquares 30)
  obtain ⟨keys, hasc, hmem, hkeys, hfrom, hback, -, hreverse⟩ :=
    afterOperations_enumerators compare (insertSquares 30) d hd
  obtain rfl : keys = List.range 30 := by
    have hlt : keys.Pairwise (· < ·) := hasc.imp fun h => Nat.compare_eq_lt.mp h
    refine hlt.eq_of_mem_iff List.pairwise_lt_range fun key => ?_
    have hkey := hmem key
    simp only [Nat.compare_eq_eq, exists_eq_right'] at hkey
    rw [hkey, lastValue_insertSquares, List.mem_range]
    split_ifs <;> simp_all
  cases d with
  | array es =>
      -- an array is too small
      have hlength : es.length = 30 := by
        rw [← List.length_map (f := Prod.fst), show es.map Prod.fst = List.range 30 from hkeys,
          List.length_range]
      exact absurd hvalid.2 (by rw [hlength]; decide)
  | tree root =>
      refine ⟨root, hd, hkeys, ?_, ?_, hreverse⟩
      · rw [hfrom]
        decide
      · rw [hback]
        decide

end FImmutableSortedDictionary

end FirebaseLogin
