import Mathlib.Data.List.Basic
import Mathlib.Tactic.Common

/-!
# Entries Sorted by a Comparator

What a sorted dictionary is for, as a list: entries in strictly ascending order of their keys,
with the lookup, the insertion and the removal of a key. The comparator is any function into
`Ordering` that is a total preorder (`Std.TransCmp`). Different keys may compare as the same;
an entry then takes the place of the other.

The three operations are read at a split of the list around one of its entries, as a search
tree does, and as functions of the lookup.

## Main results

* `lookup_insert`, `lookup_erase`: lookups after an insertion and a removal.
* `Ascending.insert`, `Ascending.erase`: both keep the order.
-/

namespace FirebaseLogin

namespace SortedEntries

variable {κ ν : Type} (cmp : κ → κ → Ordering)

/-- The entries stand in strictly ascending order of their keys. -/
def Ascending (es : List (κ × ν)) : Prop :=
  es.Pairwise fun a b => cmp a.1 b.1 = .lt

/-- The value under a key. -/
def lookup (k : κ) : List (κ × ν) → Option ν
  | [] => none
  | e :: es => if cmp k e.1 = .eq then some e.2 else lookup k es

/-- The entries with one more, or with one in the place of the entry of the same key. -/
def insert (e : κ × ν) : List (κ × ν) → List (κ × ν)
  | [] => [e]
  | x :: es =>
      match cmp e.1 x.1 with
      | .lt => e :: x :: es
      | .eq => e :: es
      | .gt => x :: insert e es

/-- The key under which an entry of a key is stored: the one that is there already, if any. -/
def keptKey (k : κ) (es : List (κ × ν)) : κ :=
  (lookup cmp k (es.map fun e => (e.1, e.1))).getD k

/-- The entries without those of a key. -/
def erase (k : κ) (es : List (κ × ν)) : List (κ × ν) :=
  es.filter fun e => decide (cmp k e.1 ≠ .eq)

variable {cmp} {k k' : κ} {e x : κ × ν} {es l r : List (κ × ν)}

/-- Nothing is found among no entries. -/
@[simp]
theorem lookup_nil : lookup cmp k ([] : List (κ × ν)) = none := rfl

/-- An insertion among no entries. -/
@[simp]
theorem insert_nil : insert cmp e [] = [e] := rfl

/-- A removal among no entries. -/
@[simp]
theorem erase_nil : erase cmp k ([] : List (κ × ν)) = [] := rfl

/-- A key that no entry compares as the same is not found. -/
theorem lookup_eq_none (h : ∀ e ∈ es, cmp k e.1 ≠ .eq) : lookup cmp k es = none := by
  induction es with
  | nil => rfl
  | cons e es ih =>
      rw [lookup, if_neg (h e List.mem_cons_self)]
      exact ih fun e he => h e (List.mem_cons_of_mem _ he)

/-- When a key is not found, no entry compares as the same. -/
theorem ne_of_lookup_eq_none (h : lookup cmp k es = none) : ∀ e ∈ es, cmp k e.1 ≠ .eq := by
  induction es with
  | nil => simp
  | cons x es ih =>
      rw [lookup] at h
      split at h
      · cases h
      · rename_i hx
        intro e he
        rcases List.mem_cons.mp he with rfl | he
        · exact hx
        · exact ih h e he

/-- A key is found exactly when some entry compares as the same. -/
theorem lookup_isSome_iff : (lookup cmp k es).isSome = true ↔ ∃ e ∈ es, cmp k e.1 = .eq := by
  induction es with
  | nil => simp
  | cons x es ih =>
      rw [lookup]
      by_cases hx : cmp k x.1 = .eq
      · simp [hx]
      · simp [hx, ih]

/-- A search passes over entries of other keys. -/
theorem lookup_append_of_forall (h : ∀ e ∈ l, cmp k e.1 ≠ .eq) :
    lookup cmp k (l ++ r) = lookup cmp k r := by
  induction l with
  | nil => rfl
  | cons e l ih =>
      rw [List.cons_append, lookup, if_neg (h e List.mem_cons_self)]
      exact ih fun e he => h e (List.mem_cons_of_mem _ he)

/-- The removal of a key that is not there changes nothing. -/
theorem erase_eq_self (h : ∀ e ∈ es, cmp k e.1 ≠ .eq) : erase cmp k es = es :=
  List.filter_eq_self.mpr fun e he => decide_eq_true (h e he)

/-- A removal from two parts is the removal from each. -/
theorem erase_append : erase cmp k (l ++ r) = erase cmp k l ++ erase cmp k r :=
  List.filter_append ..

/-- The first part of ascending entries ascends. -/
theorem Ascending.left (h : Ascending cmp (l ++ r)) : Ascending cmp l :=
  (List.pairwise_append.mp h).1

/-- The last part of ascending entries ascends. -/
theorem Ascending.right (h : Ascending cmp (l ++ r)) : Ascending cmp r :=
  (List.pairwise_append.mp h).2.1

/-- What comes before an entry is smaller. -/
theorem Ascending.lt_of_mem_left (h : Ascending cmp (l ++ x :: r)) (he : e ∈ l) :
    cmp e.1 x.1 = .lt :=
  (List.pairwise_append.mp h).2.2 e he x List.mem_cons_self

/-- What comes after an entry is larger. -/
theorem Ascending.lt_of_mem_right (h : Ascending cmp (l ++ x :: r)) (he : e ∈ r) :
    cmp x.1 e.1 = .lt :=
  List.rel_of_pairwise_cons h.right he

/-- The entries after an entry ascend. -/
theorem Ascending.of_cons_right (h : Ascending cmp (l ++ x :: r)) : Ascending cmp r :=
  (List.pairwise_cons.mp h.right).2

/-- Entries ascend without those of a key. -/
theorem Ascending.erase (h : Ascending cmp es) (k : κ) : Ascending cmp (erase cmp k es) :=
  List.Pairwise.filter _ h

/-- A smaller key is not the same. -/
theorem ne_eq_of_lt (h : cmp k k' = .lt) : cmp k k' ≠ .eq := by
  rw [h]
  decide

/-- An entry smaller than one of the list is inserted before that one. -/
theorem insert_of_lt (he : cmp e.1 x.1 = .lt) :
    insert cmp e (l ++ x :: r) = insert cmp e l ++ x :: r := by
  induction l with
  | nil => simp [insert, he]
  | cons y l ih =>
      rw [List.cons_append, insert, insert]
      split
      · rfl
      · rfl
      · rw [ih]
        rfl

/-- An entry larger than a first part is inserted after it. -/
theorem insert_append_of_gt (h : ∀ y ∈ l, cmp e.1 y.1 = .gt) :
    insert cmp e (l ++ r) = l ++ insert cmp e r := by
  induction l with
  | nil => rfl
  | cons y l ih =>
      simp only [List.cons_append, insert, h y List.mem_cons_self]
      rw [ih fun z hz => h z (List.mem_cons_of_mem _ hz)]

/-- An entry with a new key is added. -/
theorem insert_perm (h : ∀ x ∈ es, cmp e.1 x.1 ≠ .eq) : (insert cmp e es).Perm (e :: es) := by
  induction es with
  | nil => exact List.Perm.refl _
  | cons x es ih =>
      rw [insert]
      split
      · exact List.Perm.refl _
      · rename_i heq
        exact absurd heq (h x List.mem_cons_self)
      · exact ((ih fun y hy => h y (List.mem_cons_of_mem _ hy)).cons x).trans (.swap ..)

/-- What is there after an insertion is the new entry, or was there. -/
theorem mem_insert (hy : x ∈ insert cmp e es) : x = e ∨ x ∈ es := by
  induction es with
  | nil => exact .inl (List.mem_singleton.mp hy)
  | cons z es ih =>
      rw [insert] at hy
      split at hy
      · exact List.mem_cons.mp hy
      · rcases List.mem_cons.mp hy with rfl | hy
        · exact .inl rfl
        · exact .inr (List.mem_cons_of_mem _ hy)
      · rcases List.mem_cons.mp hy with rfl | hy
        · exact .inr List.mem_cons_self
        · exact (ih hy).imp_right (List.mem_cons_of_mem _)

variable [Std.TransCmp cmp]

/-- A key that is not below another is above all that is. -/
theorem gt_of_lt_of_not_lt {a b : κ} (h : cmp b k = .lt) (ha : cmp a k ≠ .lt) :
    cmp a b = .gt := by
  have hge : (cmp k a).isLE := by
    rw [← Std.OrientedCmp.isGE_iff_isLE]
    cases hcmp : cmp a k with
    | lt => exact absurd hcmp ha
    | eq | gt => rfl
  exact Std.OrientedCmp.gt_of_lt (Std.TransCmp.lt_of_lt_of_isLE h hge)

/-- The entries above a split are not those of a smaller key. -/
theorem Ascending.ne_of_lt_right (h : Ascending cmp (l ++ x :: r)) (hk : cmp k x.1 = .lt)
    (he : e ∈ r) : cmp k e.1 ≠ .eq :=
  ne_eq_of_lt (Std.TransCmp.lt_trans hk (h.lt_of_mem_right he))

/-- The entries below a split are not those of a larger key. -/
theorem Ascending.gt_of_gt_left (h : Ascending cmp (l ++ x :: r)) (hk : cmp k x.1 = .gt)
    (he : e ∈ l) : cmp k e.1 = .gt :=
  Std.OrientedCmp.gt_of_lt
    (Std.TransCmp.lt_trans (h.lt_of_mem_left he) (Std.OrientedCmp.lt_of_gt hk))

/-- A key that is the same as one of the list is larger than what comes before. -/
theorem Ascending.ne_of_eq_left (h : Ascending cmp (l ++ x :: r)) (hk : cmp k x.1 = .eq)
    (he : e ∈ l) : cmp k e.1 = .gt := by
  rw [Std.TransCmp.congr_left hk]
  exact Std.OrientedCmp.gt_of_lt (h.lt_of_mem_left he)

/-- A key that is the same as one of the list is not that of what comes after. -/
theorem Ascending.ne_of_eq_right (h : Ascending cmp (l ++ x :: r)) (hk : cmp k x.1 = .eq)
    (he : e ∈ r) : cmp k e.1 ≠ .eq := by
  rw [Std.TransCmp.congr_left hk]
  exact ne_eq_of_lt (h.lt_of_mem_right he)

/-! ### At a split -/

/-- A key smaller than one of the list is searched before it. -/
theorem lookup_of_lt (h : Ascending cmp (l ++ x :: r)) (hk : cmp k x.1 = .lt) :
    lookup cmp k (l ++ x :: r) = lookup cmp k l := by
  induction l with
  | nil =>
      refine lookup_eq_none fun e he => ?_
      rcases List.mem_cons.mp he with rfl | he
      · exact ne_eq_of_lt hk
      · exact h.ne_of_lt_right hk he
  | cons e l ih =>
      rw [List.cons_append, lookup, lookup, ih (List.pairwise_cons.mp h).2]

/-- A key larger than one of the list is searched after it. -/
theorem lookup_of_gt (h : Ascending cmp (l ++ x :: r)) (hk : cmp k x.1 = .gt) :
    lookup cmp k (l ++ x :: r) = lookup cmp k r := by
  rw [lookup_append_of_forall fun e he => by simp [h.gt_of_gt_left hk he], lookup,
    if_neg (by simp [hk])]

/-- A key that is the same as one of the list is found there. -/
theorem lookup_of_eq (h : Ascending cmp (l ++ x :: r)) (hk : cmp k x.1 = .eq) :
    lookup cmp k (l ++ x :: r) = some x.2 := by
  rw [lookup_append_of_forall fun e he => by simp [h.ne_of_eq_left hk he], lookup, if_pos hk]

/-- An entry larger than one of the list is inserted after that one. -/
theorem insert_of_gt (h : Ascending cmp (l ++ x :: r)) (he : cmp e.1 x.1 = .gt) :
    insert cmp e (l ++ x :: r) = l ++ x :: insert cmp e r := by
  rw [insert_append_of_gt fun y hy => h.gt_of_gt_left he hy]
  simp [insert, he]

/-- An entry with the key of one of the list takes its place. -/
theorem insert_of_eq (h : Ascending cmp (l ++ x :: r)) (he : cmp e.1 x.1 = .eq) :
    insert cmp e (l ++ x :: r) = l ++ e :: r := by
  rw [insert_append_of_gt fun y hy => h.ne_of_eq_left he hy]
  simp [insert, he]

/-- A key smaller than one of the list is removed before it. -/
theorem erase_of_lt (h : Ascending cmp (l ++ x :: r)) (hk : cmp k x.1 = .lt) :
    erase cmp k (l ++ x :: r) = erase cmp k l ++ x :: r := by
  have hright : erase cmp k (x :: r) = x :: r := by
    refine erase_eq_self fun e he => ?_
    rcases List.mem_cons.mp he with rfl | he
    · exact ne_eq_of_lt hk
    · exact h.ne_of_lt_right hk he
  rw [erase_append, hright]

/-- A key larger than one of the list is removed after it. -/
theorem erase_of_gt (h : Ascending cmp (l ++ x :: r)) (hk : cmp k x.1 = .gt) :
    erase cmp k (l ++ x :: r) = l ++ x :: erase cmp k r := by
  rw [erase_append, erase_eq_self fun e he => by simp [h.gt_of_gt_left hk he]]
  simp [erase, hk]

/-- A key that is the same as one of the list is removed there. -/
theorem erase_of_eq (h : Ascending cmp (l ++ x :: r)) (hk : cmp k x.1 = .eq) :
    erase cmp k (l ++ x :: r) = l ++ r := by
  rw [erase_append, erase_eq_self fun e he => by simp [h.ne_of_eq_left hk he]]
  have hr : erase cmp k r = r := erase_eq_self fun e he => h.ne_of_eq_right hk he
  rw [← hr]
  simp [erase, hk]

/-! ### The kept key -/

omit [Std.TransCmp cmp] in
/-- Keys paired with themselves ascend as the entries do. -/
theorem Ascending.keys (h : Ascending cmp es) : Ascending cmp (es.map fun e => (e.1, e.1)) :=
  List.pairwise_map.mpr h

/-- A key smaller than one of the list keeps the spelling it has before that one. -/
theorem keptKey_of_lt (h : Ascending cmp (l ++ x :: r)) (hk : cmp k x.1 = .lt) :
    keptKey cmp k (l ++ x :: r) = keptKey cmp k l := by
  have hkeys := h.keys
  rw [List.map_append, List.map_cons] at hkeys
  rw [keptKey, List.map_append, List.map_cons, lookup_of_lt hkeys hk, ← keptKey]

/-- A key larger than one of the list keeps the spelling it has after that one. -/
theorem keptKey_of_gt (h : Ascending cmp (l ++ x :: r)) (hk : cmp k x.1 = .gt) :
    keptKey cmp k (l ++ x :: r) = keptKey cmp k r := by
  have hkeys := h.keys
  rw [List.map_append, List.map_cons] at hkeys
  rw [keptKey, List.map_append, List.map_cons, lookup_of_gt hkeys hk, ← keptKey]

/-- A key that is the same as one of the list keeps that one's spelling. -/
theorem keptKey_of_eq (h : Ascending cmp (l ++ x :: r)) (hk : cmp k x.1 = .eq) :
    keptKey cmp k (l ++ x :: r) = x.1 := by
  have hkeys := h.keys
  rw [List.map_append, List.map_cons] at hkeys
  rw [keptKey, List.map_append, List.map_cons, lookup_of_eq hkeys hk, Option.getD_some]

/-- The kept key compares as the key itself. -/
theorem cmp_keptKey (k : κ) (es : List (κ × ν)) : cmp (keptKey cmp k es) k = .eq := by
  induction es with
  | nil => exact Std.ReflCmp.compare_self
  | cons e es ih =>
      rw [keptKey, List.map_cons, lookup]
      split
      · rename_i heq
        exact Std.OrientedCmp.eq_symm heq
      · exact ih

/-! ### Lookups and order -/

/-- An insertion keeps the entries in order. -/
theorem Ascending.insert (h : Ascending cmp es) (e : κ × ν) :
    Ascending cmp (insert cmp e es) := by
  induction es with
  | nil => exact List.pairwise_singleton _ _
  | cons x es ih =>
      obtain ⟨hx, hes⟩ := List.pairwise_cons.mp h
      rw [SortedEntries.insert]
      split
      · rename_i hlt
        refine List.pairwise_cons.mpr ⟨?_, h⟩
        intro y hy
        rcases List.mem_cons.mp hy with rfl | hy
        · exact hlt
        · exact Std.TransCmp.lt_trans hlt (hx y hy)
      · rename_i heq
        refine List.pairwise_cons.mpr ⟨?_, hes⟩
        intro y hy
        rw [Std.TransCmp.congr_left heq]
        exact hx y hy
      · rename_i hgt
        refine List.pairwise_cons.mpr ⟨?_, ih hes⟩
        intro y hy
        rcases mem_insert hy with rfl | hy
        · exact Std.OrientedCmp.lt_of_gt hgt
        · exact hx y hy

/-- **Lookups after an insertion.** -/
theorem lookup_insert (h : Ascending cmp es) (e : κ × ν) (k : κ) :
    lookup cmp k (insert cmp e es) =
      if cmp k e.1 = .eq then some e.2 else lookup cmp k es := by
  induction es with
  | nil => rfl
  | cons x es ih =>
      obtain ⟨hx, hes⟩ := List.pairwise_cons.mp h
      rw [insert]
      split
      · rw [lookup]
      · rename_i heq
        rw [lookup, lookup, Std.TransCmp.congr_right heq]
        split
        · rfl
        · rfl
      · rename_i hgt
        rw [lookup, lookup, ih hes]
        by_cases hkx : cmp k x.1 = .eq
        · have hke : cmp k e.1 ≠ .eq := by
            rw [Std.TransCmp.congr_left hkx, Std.OrientedCmp.lt_of_gt hgt]
            decide
          rw [if_pos hkx, if_pos hkx, if_neg hke]
        · rw [if_neg hkx, if_neg hkx]

/-- **Lookups after a removal.** -/
theorem lookup_erase (k k' : κ) (es : List (κ × ν)) :
    lookup cmp k (erase cmp k' es) =
      if cmp k k' = .eq then none else lookup cmp k es := by
  induction es with
  | nil => simp [erase]
  | cons x es ih =>
      simp only [erase, List.filter_cons, lookup] at ih ⊢
      by_cases hx : cmp k' x.1 = .eq
      · rw [if_neg (by simp [hx]), ih, ← Std.TransCmp.congr_right hx]
        by_cases hk : cmp k k' = .eq
        · simp [hk]
        · simp [hk]
      · rw [if_pos (by simp [hx]), lookup, ih]
        by_cases hk : cmp k k' = .eq
        · have hkx : cmp k x.1 ≠ .eq := by
            rw [Std.TransCmp.congr_left hk]
            exact hx
          simp [hk, hkx]
        · simp [hk]

end SortedEntries

end FirebaseLogin
