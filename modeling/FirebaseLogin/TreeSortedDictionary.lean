import FirebaseLogin.LLRBRemoval

/-!
# The Dictionary as a Tree

`FTreeSortedDictionary.m` and its enumerator: the search for a key and for its predecessor, the
construction of a tree from sorted entries, and the enumeration of the keys from a start key.

A tree of `n` entries is built from the digits of `n` in the base with the digits one and two,
the most significant first: a digit is one or two pennants, each a node with a full tree on its
right, and the next pennant hangs on the left of the last one.

## Main results

* `get_eq_lookup`: the search finds what is in the entries.
* `rootFrom12List_spec`: **the tree that is built is balanced and holds the entries.**
* `keyEnumeratorFrom_eq`, `reverseKeyEnumeratorFrom_eq`, `reverseKeyEnumerator_eq`: what the
  enumerators give.
-/

namespace FirebaseLogin

open SortedEntries

namespace FLLRBNode

variable {κ ν : Type} (cmp : κ → κ → Ordering)

/-! ### Search -/

/-- `get:`, the search from the root. -/
def get (key : κ) : FLLRBNode κ ν → Option ν
  | emptyNode => none
  | valueNode _ l k v r =>
      match cmp key k with
      | .eq => some v
      | .lt => get key l
      | .gt => get key r

/-- The loop of `getPredecessorKey`. The source raises an exception where the key is missing,
which is the outer `none`. -/
def getPredecessorKeyFrom (key : κ) (rightParent : Option κ) :
    FLLRBNode κ ν → Option (Option κ)
  | emptyNode => none
  | valueNode _ l k _ r =>
      match cmp key k with
      | .eq => some (if l.isEmpty then rightParent else l.maxKey)
      | .lt => getPredecessorKeyFrom key rightParent l
      | .gt => getPredecessorKeyFrom key (some k) r

/-- `getPredecessorKey:`; none is the exception on a key that is not there. -/
def getPredecessorKey (key : κ) (t : FLLRBNode κ ν) : Option (Option κ) :=
  getPredecessorKeyFrom cmp key none t

/-! ### Construction -/

/-- `buildBalancedTree`; the keys come with their values. -/
def buildBalancedTree (keys : List (κ × ν)) (startIndex length : Nat) : FLLRBNode κ ν :=
  let bounded := Min.min (keys.length - startIndex) length
  if bounded = 0 then emptyNode
  else
    match keys[startIndex + bounded / 2]? with
    | none => emptyNode
    | some e =>
        if bounded = 1 then valueNode .black emptyNode e.1 e.2 emptyNode
        else
          valueNode .black (buildBalancedTree keys startIndex (bounded / 2)) e.1 e.2
            (buildBalancedTree keys (startIndex + bounded / 2 + 1) (bounded / 2))
termination_by length
decreasing_by
  all_goals omega

/-- A pennant with what hangs on its left. -/
def buildPennant (keyList : List (κ × ν)) (color : FLLRBColor) (chunkSize index : Nat)
    (rest : FLLRBNode κ ν) : FLLRBNode κ ν :=
  match keyList[index - chunkSize]? with
  | none => emptyNode
  | some e =>
      valueNode color rest e.1 e.2
        (buildBalancedTree keyList (index - chunkSize + 1) (chunkSize - 1))

/-- The loop of `rootFrom12List` over the digits that are left. -/
def buildPennants (bits : Nat) (keyList : List (κ × ν)) : Nat → Nat → FLLRBNode κ ν
  | 0, _ => emptyNode
  | n + 1, index =>
      let chunkSize := 2 ^ n
      if bits.testBit n then
        buildPennant keyList .black chunkSize index
          (buildPennant keyList .red chunkSize (index - chunkSize)
            (buildPennants bits keyList n (index - chunkSize - chunkSize)))
      else
        buildPennant keyList .black chunkSize index
          (buildPennants bits keyList n (index - chunkSize))

/-- `base1_2List_new` and `rootFrom12List`. The logarithm of the source is a quotient of two
floating point ones, which is exact for 32-bit integers. -/
def rootFrom12List (keyList : List (κ × ν)) : FLLRBNode κ ν :=
  let count := (keyList.length + 1).log2
  let bits := (keyList.length + 1) % 2 ^ count
  buildPennants bits keyList count keyList.length

/-! ### Enumeration -/

/-- The stack of a new enumerator, the top first, from a node on. Without a start key the source
takes every comparison for one with a smaller key, and turns it around in reverse. -/
def startStack (startKey : Option κ) (isReverse : Bool) :
    FLLRBNode κ ν → List (FLLRBNode κ ν) → List (FLLRBNode κ ν)
  | emptyNode, stack => stack
  | valueNode c l k v r, stack =>
      let result := (startKey.map (cmp k)).getD .gt
      match if isReverse then result.swap else result with
      | .lt =>
          if isReverse then startStack startKey isReverse l stack
          else startStack startKey isReverse r stack
      | .eq => valueNode c l k v r :: stack
      | .gt =>
          if isReverse then startStack startKey isReverse r (valueNode c l k v r :: stack)
          else startStack startKey isReverse l (valueNode c l k v r :: stack)

/-- The pushes of `nextObject`. -/
def pushAll (isReverse : Bool) :
    FLLRBNode κ ν → List (FLLRBNode κ ν) → List (FLLRBNode κ ν)
  | emptyNode, stack => stack
  | valueNode c l k v r, stack =>
      if isReverse then pushAll isReverse r (valueNode c l k v r :: stack)
      else pushAll isReverse l (valueNode c l k v r :: stack)

/-- `nextObject`: the key, and the stack after it. -/
def nextObject (isReverse : Bool) :
    List (FLLRBNode κ ν) → Option (κ × List (FLLRBNode κ ν))
  | valueNode _ l k _ r :: stack =>
      some (k, pushAll isReverse (if isReverse then l else r) stack)
  | _ => none

/-- The number of keys that an enumerator has still to give. -/
def pendingCount (isReverse : Bool) : List (FLLRBNode κ ν) → Nat
  | valueNode _ l _ _ r :: stack =>
      (if isReverse then l.count else r.count) + 1 + pendingCount isReverse stack
  | _ => 0

/-- Pushing a tree makes all its nodes pending. -/
theorem pendingCount_pushAll (isReverse : Bool) (t : FLLRBNode κ ν)
    (stack : List (FLLRBNode κ ν)) :
    pendingCount isReverse (pushAll isReverse t stack) =
      t.count + pendingCount isReverse stack := by
  induction t generalizing stack with
  | emptyNode => simp [pushAll, count]
  | valueNode c l k v r ihl ihr =>
      cases isReverse with
      | true =>
          simp only [pushAll, if_true, ihr, pendingCount, count]
          omega
      | false =>
          simp only [pushAll, Bool.false_eq_true, if_false, ihl, pendingCount, count]
          omega

/-- Each object that is returned leaves fewer nodes pending. -/
theorem pendingCount_nextObject {isReverse : Bool} {stack stack' : List (FLLRBNode κ ν)} {k : κ}
    (h : nextObject isReverse stack = some (k, stack')) :
    pendingCount isReverse stack' < pendingCount isReverse stack := by
  unfold nextObject at h
  split at h
  · obtain ⟨rfl, rfl⟩ := Prod.mk.inj (Option.some.inj h)
    rw [pendingCount_pushAll, pendingCount]
    split
    · omega
    · omega
  · cases h

/-- `allObjects`: the keys that `nextObject` gives until there is none. -/
def allObjects (isReverse : Bool) (stack : List (FLLRBNode κ ν)) : List κ :=
  match _h : nextObject isReverse stack with
  | none => []
  | some (k, stack') => k :: allObjects isReverse stack'
termination_by pendingCount isReverse stack
decreasing_by exact pendingCount_nextObject _h

/-- `keyEnumerator`. -/
def keyEnumerator (t : FLLRBNode κ ν) : List κ :=
  allObjects false (startStack cmp none false t [])

/-- `keyEnumeratorFrom:`. -/
def keyEnumeratorFrom (startKey : κ) (t : FLLRBNode κ ν) : List κ :=
  allObjects false (startStack cmp (some startKey) false t [])

/-- `reverseKeyEnumerator`, which starts without a key to start from. -/
def reverseKeyEnumerator (t : FLLRBNode κ ν) : List κ :=
  allObjects true (startStack cmp none true t [])

/-- `reverseKeyEnumeratorFrom:`. -/
def reverseKeyEnumeratorFrom (startKey : κ) (t : FLLRBNode κ ν) : List κ :=
  allObjects true (startStack cmp (some startKey) true t [])

variable {cmp}

/-! ### What a search finds -/

/-- The search finds the entry of the key. -/
theorem get_eq_lookup [Std.TransCmp cmp] {t : FLLRBNode κ ν} (h : Ascending cmp t.entries)
    (key : κ) : get cmp key t = lookup cmp key t.entries := by
  induction t with
  | emptyNode => rfl
  | valueNode c l k v r ihl ihr =>
      rw [entries] at h ⊢
      rw [get]
      split
      · rename_i heq
        rw [lookup_of_eq h heq]
      · rename_i hlt
        rw [lookup_of_lt h hlt, ihl h.left]
      · rename_i hgt
        rw [lookup_of_gt h hgt, ihr h.of_cons_right]

/-- The greatest key is that of the last entry. -/
theorem maxKey_eq_getLast? (t : FLLRBNode κ ν) :
    t.maxKey = t.entries.getLast?.map Prod.fst := by
  induction t with
  | emptyNode => rfl
  | valueNode c l k v r ihl ihr =>
      cases r with
      | emptyNode => simp [maxKey, entries]
      | valueNode cr rl rk rv rr =>
          rw [maxKey, if_neg (by simp), ihr]
          simp [entries, List.getLast?_cons]

/-- The search for the predecessor gives the last key before the key, or what it started with
where there is none. -/
theorem getPredecessorKeyFrom_eq [Std.TransCmp cmp] {t : FLLRBNode κ ν}
    (h : Ascending cmp t.entries) (key : κ) (rightParent : Option κ) :
    getPredecessorKeyFrom cmp key rightParent t =
      (lookup cmp key t.entries).map fun _ =>
        ((t.entries.filter fun e => decide (cmp key e.1 = .gt)).getLast?.map Prod.fst).or
          rightParent := by
  induction t generalizing rightParent with
  | emptyNode => rfl
  | valueNode c l k v r ihl ihr =>
      rw [entries] at h ⊢
      rw [getPredecessorKeyFrom]
      have hright : cmp key k ≠ .gt →
          r.entries.filter (fun e => decide (cmp key e.1 = .gt)) = [] := by
        intro hk
        rw [List.filter_eq_nil_iff]
        intro e he
        have hke := h.lt_of_mem_right he
        have hlt : cmp key e.1 = .lt := by
          refine Std.TransCmp.lt_of_isLE_of_lt ?_ hke
          cases hcmp : cmp key k with
          | lt | eq => rfl
          | gt => exact absurd hcmp hk
        simp [hlt]
      split
      · rename_i heq
        have hleft : l.entries.filter (fun e => decide (cmp key e.1 = .gt)) = l.entries :=
          List.filter_eq_self.mpr fun e he => by simp [h.ne_of_eq_left heq he]
        rw [lookup_of_eq h heq, List.filter_append, hleft,
          List.filter_cons_of_neg (by simp [heq]), hright (by simp [heq]), List.append_nil,
          Option.map_some]
        cases l with
        | emptyNode => rfl
        | valueNode cl ll lk lv lr =>
            rw [if_neg (by simp), maxKey_eq_getLast?]
            simp [entries, List.getLast?_cons]
      · rename_i hlt
        rw [lookup_of_lt h hlt, ihl h.left, List.filter_append,
          List.filter_cons_of_neg (by simp [hlt]), hright (by simp [hlt]), List.append_nil]
      · rename_i hgt
        have hleft : l.entries.filter (fun e => decide (cmp key e.1 = .gt)) = l.entries :=
          List.filter_eq_self.mpr fun e he => by simp [h.gt_of_gt_left hgt he]
        rw [lookup_of_gt h hgt, ihr h.of_cons_right, List.filter_append, hleft,
          List.filter_cons_of_pos (by simp [hgt])]
        congr 1
        funext _
        rw [List.getLast?_append, List.getLast?_cons]
        cases (r.entries.filter fun e => decide (cmp key e.1 = .gt)).getLast? with
        | none => rfl
        | some e => rfl

/-! ### The tree that is built -/

/-- A slice of `2 ^ i - 1` entries becomes a full tree of depth `i`. -/
theorem buildBalancedTree_spec (keys : List (κ × ν)) (i startIndex : Nat)
    (h : startIndex + (2 ^ i - 1) ≤ keys.length) :
    Balanced .black i (buildBalancedTree keys startIndex (2 ^ i - 1)) ∧
      (buildBalancedTree keys startIndex (2 ^ i - 1)).entries =
        (keys.drop startIndex).take (2 ^ i - 1) := by
  induction i generalizing startIndex with
  | zero =>
      rw [buildBalancedTree]
      simp [entries, Balanced.emptyNode]
  | succ i ih =>
      have hpow : 2 ^ (i + 1) = 2 * 2 ^ i := by rw [Nat.pow_succ, Nat.mul_comm]
      have hpos : 0 < 2 ^ i := Nat.two_pow_pos i
      have hbound : Min.min (keys.length - startIndex) (2 ^ (i + 1) - 1) = 2 ^ (i + 1) - 1 := by
        omega
      have hmiddle : (2 ^ (i + 1) - 1) / 2 = 2 ^ i - 1 := by omega
      have hlt : startIndex + (2 ^ i - 1) < keys.length := by omega
      obtain ⟨hl, hel⟩ := ih startIndex (by omega)
      obtain ⟨hr, her⟩ := ih (startIndex + (2 ^ i - 1) + 1) (by omega)
      have hnode : buildBalancedTree keys startIndex (2 ^ (i + 1) - 1) =
          valueNode .black (buildBalancedTree keys startIndex (2 ^ i - 1))
            keys[startIndex + (2 ^ i - 1)].1 keys[startIndex + (2 ^ i - 1)].2
            (buildBalancedTree keys (startIndex + (2 ^ i - 1) + 1) (2 ^ i - 1)) := by
        rw [buildBalancedTree]
        simp only [hbound, hmiddle, List.getElem?_eq_getElem hlt]
        rw [if_neg (by omega)]
        split
        · -- a single entry: the children are empty
          have hone : 2 ^ i - 1 = 0 := by omega
          simp only [hone]
          rw [buildBalancedTree.eq_def keys startIndex 0,
            buildBalancedTree.eq_def keys (startIndex + 0 + 1) 0]
          simp
        · rfl
      rw [hnode]
      refine ⟨.black hl hr, ?_⟩
      rw [entries, hel, her]
      have hsplit : 2 ^ (i + 1) - 1 = (2 ^ i - 1) + (1 + (2 ^ i - 1)) := by omega
      rw [hsplit, List.take_add, List.take_add, List.drop_drop, List.drop_drop,
        List.take_one, List.head?_drop, List.getElem?_eq_getElem hlt]
      rfl

/-- A pennant before what hangs on its left. -/
theorem buildPennant_spec (keyList : List (κ × ν)) (color : FLLRBColor) {n index : Nat}
    {rest : FLLRBNode κ ν} (hindex : 2 ^ n ≤ index) (hlength : index ≤ keyList.length)
    (hrest : rest.entries = keyList.take (index - 2 ^ n)) :
    ∃ (e : κ × ν) (right : FLLRBNode κ ν), buildPennant keyList color (2 ^ n) index rest =
        valueNode color rest e.1 e.2 right ∧
      Balanced .black n right ∧
      (buildPennant keyList color (2 ^ n) index rest).entries = keyList.take index := by
  have hpos : 0 < 2 ^ n := Nat.two_pow_pos n
  have hlt : index - 2 ^ n < keyList.length := by omega
  obtain ⟨hb, her⟩ := buildBalancedTree_spec keyList n (index - 2 ^ n + 1) (by omega)
  have hnode : buildPennant keyList color (2 ^ n) index rest =
      valueNode color rest keyList[index - 2 ^ n].1 keyList[index - 2 ^ n].2
        (buildBalancedTree keyList (index - 2 ^ n + 1) (2 ^ n - 1)) := by
    rw [buildPennant, List.getElem?_eq_getElem hlt]
  refine ⟨_, _, hnode, hb, ?_⟩
  rw [hnode, entries, hrest, her]
  have hsplit : index = (index - 2 ^ n) + (1 + (2 ^ n - 1)) := by omega
  conv_rhs => rw [hsplit, List.take_add, List.take_add, List.drop_drop, List.take_one,
    List.head?_drop, List.getElem?_eq_getElem hlt]
  rfl

/-- The pennants of the digits that are left make a balanced tree of as many entries as the
digits stand for. -/
theorem buildPennants_spec (keyList : List (κ × ν)) (bits n : Nat)
    (h : 2 ^ n - 1 + bits % 2 ^ n ≤ keyList.length) :
    Balanced .black n (buildPennants bits keyList n (2 ^ n - 1 + bits % 2 ^ n)) ∧
      (buildPennants bits keyList n (2 ^ n - 1 + bits % 2 ^ n)).entries =
        keyList.take (2 ^ n - 1 + bits % 2 ^ n) := by
  induction n with
  | zero => simp [buildPennants, Balanced.emptyNode, entries, Nat.mod_one]
  | succ n ih =>
      have hpos : 0 < 2 ^ n := Nat.two_pow_pos n
      have hpow : 2 ^ (n + 1) = 2 * 2 ^ n := by rw [Nat.pow_succ, Nat.mul_comm]
      have hmod : bits % 2 ^ (n + 1) = bits % 2 ^ n + 2 ^ n * (bits / 2 ^ n % 2) :=
        Nat.mod_pow_succ
      have hbit := Nat.testBit_eq_decide_div_mod_eq (x := bits) (i := n)
      rcases Nat.mod_two_eq_zero_or_one (bits / 2 ^ n) with hzero | hone
      · -- one pennant
        simp only [hzero, Nat.mul_zero, Nat.add_zero] at hmod
        rw [hmod] at h ⊢
        have hindex : 2 ^ (n + 1) - 1 + bits % 2 ^ n - 2 ^ n = 2 ^ n - 1 + bits % 2 ^ n := by
          omega
        obtain ⟨hb, hentries⟩ := ih (by omega)
        rw [buildPennants, if_neg (by simp [hbit, hzero]), hindex]
        obtain ⟨e, right, heq, hright, hall⟩ := buildPennant_spec keyList .black
          (by omega : 2 ^ n ≤ 2 ^ (n + 1) - 1 + bits % 2 ^ n) h (hentries.trans (by rw [hindex]))
        refine ⟨?_, hall⟩
        rw [heq]
        exact .black hb hright
      · -- a black pennant with a red one on its left
        rw [hone, Nat.mul_one] at hmod
        have hlast : 2 ^ (n + 1) - 1 + bits % 2 ^ (n + 1) - 2 ^ n - 2 ^ n =
            2 ^ n - 1 + bits % 2 ^ n := by
          omega
        obtain ⟨hb, hentries⟩ := ih (by omega)
        rw [buildPennants, if_pos (by simp [hbit, hone]), hlast]
        obtain ⟨e, right, heq, hright, hred⟩ := buildPennant_spec keyList .red
          (by omega : 2 ^ n ≤ 2 ^ (n + 1) - 1 + bits % 2 ^ (n + 1) - 2 ^ n) (by omega)
          (hentries.trans (by rw [hlast]))
        obtain ⟨e', right', heq', hright', hall⟩ := buildPennant_spec keyList .black
          (by omega : 2 ^ n ≤ 2 ^ (n + 1) - 1 + bits % 2 ^ (n + 1)) h hred
        refine ⟨?_, hall⟩
        rw [heq', heq]
        exact .black (.red hb hright) hright'

/-- **The tree that is built** from any list of entries is balanced and holds the entries in
their order. -/
theorem rootFrom12List_spec (keyList : List (κ × ν)) :
    (∃ d, Balanced .black d (rootFrom12List keyList)) ∧
      (rootFrom12List keyList).entries = keyList := by
  have hle := Nat.log2_self_le (n := keyList.length + 1) (Nat.succ_ne_zero _)
  have hlt := Nat.lt_log2_self (n := keyList.length + 1)
  rw [Nat.pow_succ] at hlt
  have hmod : (keyList.length + 1) % 2 ^ (keyList.length + 1).log2 =
      keyList.length + 1 - 2 ^ (keyList.length + 1).log2 := by
    rw [Nat.mod_eq_sub_mod hle, Nat.mod_eq_of_lt (by omega)]
  have hpos := Nat.two_pow_pos (keyList.length + 1).log2
  have hlength : 2 ^ (keyList.length + 1).log2 - 1 +
      (keyList.length + 1) % 2 ^ (keyList.length + 1).log2 %
        2 ^ (keyList.length + 1).log2 = keyList.length := by
    rw [Nat.mod_mod, hmod]
    omega
  obtain ⟨hb, hentries⟩ := buildPennants_spec keyList
    ((keyList.length + 1) % 2 ^ (keyList.length + 1).log2) (keyList.length + 1).log2 hlength.le
  rw [hlength] at hb hentries
  refine ⟨⟨_, hb⟩, ?_⟩
  rw [List.take_length] at hentries
  exact hentries

/-! ### What an enumerator gives -/

/-- The keys in their order, or in the reverse one. -/
def keysInOrder (isReverse : Bool) (t : FLLRBNode κ ν) : List κ :=
  if isReverse then (t.entries.map Prod.fst).reverse else t.entries.map Prod.fst

/-- The keys that the nodes of a stack stand for: of each its own and those on the far side. -/
def stackKeys (isReverse : Bool) : List (FLLRBNode κ ν) → List κ
  | valueNode _ l k _ r :: stack =>
      k :: (keysInOrder isReverse (if isReverse then l else r) ++ stackKeys isReverse stack)
  | _ => []

/-- Nothing is left on an empty stack. -/
@[simp]
theorem stackKeys_nil (isReverse : Bool) :
    stackKeys isReverse ([] : List (FLLRBNode κ ν)) = [] := rfl

/-- Pushing a tree puts its keys before the others. -/
theorem stackKeys_pushAll (isReverse : Bool) (t : FLLRBNode κ ν)
    (stack : List (FLLRBNode κ ν)) :
    stackKeys isReverse (pushAll isReverse t stack) =
      keysInOrder isReverse t ++ stackKeys isReverse stack := by
  induction t generalizing stack with
  | emptyNode =>
      cases isReverse with
      | true | false => rfl
  | valueNode c l k v r ihl ihr =>
      cases isReverse with
      | true =>
          rw [pushAll, if_pos rfl, ihr]
          simp [stackKeys, keysInOrder, entries]
      | false =>
          rw [pushAll, if_neg (by decide), ihl]
          simp [stackKeys, keysInOrder, entries]

/-- An enumerator returns what its stack holds, in order. -/
theorem allObjects_eq_stackKeys (isReverse : Bool) (stack : List (FLLRBNode κ ν)) :
    allObjects isReverse stack = stackKeys isReverse stack := by
  induction hn : pendingCount isReverse stack using Nat.strong_induction_on
    generalizing stack with
  | _ n ih =>
      subst hn
      rw [allObjects]
      split
      · rename_i hnone
        unfold nextObject at hnone
        split at hnone
        · cases hnone
        · rename_i hstack
          rw [stackKeys.eq_def]
          split
          · exact absurd rfl (hstack _ _ _ _ _ _)
          · rfl
      · rename_i k stack' hsome
        rw [ih _ (pendingCount_nextObject hsome) stack' rfl]
        unfold nextObject at hsome
        split at hsome
        · obtain ⟨rfl, rfl⟩ := Prod.mk.inj (Option.some.inj hsome)
          rw [stackKeys_pushAll, stackKeys]
        · cases hsome

/-- Without a start key an enumerator starts with the whole tree. -/
theorem stackKeys_startStack_none (t : FLLRBNode κ ν) (stack : List (FLLRBNode κ ν)) :
    stackKeys false (startStack cmp none false t stack) =
      keysInOrder false t ++ stackKeys false stack := by
  induction t generalizing stack with
  | emptyNode => rfl
  | valueNode c l k v r ihl ihr =>
      simp [startStack, ihl, stackKeys, keysInOrder, entries]

/-- In reverse and without a start key, the walk to the first node pushes none. -/
theorem startStack_none_reverse (t : FLLRBNode κ ν) (stack : List (FLLRBNode κ ν)) :
    startStack cmp none true t stack = stack := by
  induction t generalizing stack with
  | emptyNode => rfl
  | valueNode c l k v r ihl ihr => simp [startStack, ihl]

section StartKey

variable [Std.TransCmp cmp] {startKey : κ}

/-- With a start key an enumerator starts with the keys from there on. -/
theorem stackKeys_startStack {t : FLLRBNode κ ν} (h : Ascending cmp t.entries)
    (stack : List (FLLRBNode κ ν)) :
    stackKeys false (startStack cmp (some startKey) false t stack) =
      (t.entries.map Prod.fst).filter (fun k => decide (cmp k startKey ≠ .lt)) ++
        stackKeys false stack := by
  induction t generalizing stack with
  | emptyNode => rfl
  | valueNode c l k v r ihl ihr =>
      rw [entries] at h ⊢
      -- all that is above a key that is not below the start key is kept
      have hkeep : cmp k startKey ≠ .lt → (r.entries.map Prod.fst).filter
          (fun k => decide (cmp k startKey ≠ .lt)) = r.entries.map Prod.fst := by
        intro hk
        rw [List.filter_eq_self]
        intro x hx
        obtain ⟨e, he, rfl⟩ := List.mem_map.mp hx
        refine decide_eq_true fun hlt => hk ?_
        exact Std.TransCmp.lt_trans (h.lt_of_mem_right he) hlt
      have hdrop : cmp k startKey ≠ .gt → (l.entries.map Prod.fst).filter
          (fun k => decide (cmp k startKey ≠ .lt)) = [] := by
        intro hk
        rw [List.filter_eq_nil_iff]
        intro x hx
        obtain ⟨e, he, rfl⟩ := List.mem_map.mp hx
        have hlt : cmp e.1 startKey = .lt := by
          refine Std.TransCmp.lt_of_lt_of_isLE (h.lt_of_mem_left he) ?_
          cases hcmp : cmp k startKey with
          | lt | eq => rfl
          | gt => exact absurd hcmp hk
        simp [hlt]
      rw [List.map_append, List.map_cons, List.filter_append]
      cases hk : cmp k startKey with
      | lt =>
          rw [hdrop (by simp [hk]), List.filter_cons_of_neg (by simp [hk]), List.nil_append]
          simp only [startStack, Option.map_some, Option.getD_some, hk, Bool.false_eq_true,
            if_false]
          exact ihr h.of_cons_right stack
      | eq =>
          rw [hdrop (by simp [hk]), List.filter_cons_of_pos (by simp [hk]),
            hkeep (by simp [hk]), List.nil_append]
          simp [startStack, hk, stackKeys, keysInOrder]
      | gt =>
          rw [List.filter_cons_of_pos (by simp [hk]), hkeep (by simp [hk])]
          simp only [startStack, Option.map_some, Option.getD_some, hk, Bool.false_eq_true,
            if_false]
          rw [ihl h.left]
          simp [stackKeys, keysInOrder]

/-- In reverse it starts with the keys from there back. -/
theorem stackKeys_startStack_reverse {t : FLLRBNode κ ν} (h : Ascending cmp t.entries)
    (stack : List (FLLRBNode κ ν)) :
    stackKeys true (startStack cmp (some startKey) true t stack) =
      ((t.entries.map Prod.fst).filter fun k => decide (cmp k startKey ≠ .gt)).reverse ++
        stackKeys true stack := by
  induction t generalizing stack with
  | emptyNode => rfl
  | valueNode c l k v r ihl ihr =>
      rw [entries] at h ⊢
      have hkeep : cmp k startKey ≠ .gt → (l.entries.map Prod.fst).filter
          (fun k => decide (cmp k startKey ≠ .gt)) = l.entries.map Prod.fst := by
        intro hk
        rw [List.filter_eq_self]
        intro x hx
        obtain ⟨e, he, rfl⟩ := List.mem_map.mp hx
        refine decide_eq_true fun hgt => hk ?_
        have hlt := Std.TransCmp.lt_trans (Std.OrientedCmp.lt_of_gt hgt) (h.lt_of_mem_left he)
        exact Std.OrientedCmp.gt_of_lt hlt
      have hdrop : cmp k startKey ≠ .lt → (r.entries.map Prod.fst).filter
          (fun k => decide (cmp k startKey ≠ .gt)) = [] := by
        intro hk
        rw [List.filter_eq_nil_iff]
        intro x hx
        obtain ⟨e, he, rfl⟩ := List.mem_map.mp hx
        have hgt : cmp e.1 startKey = .gt := by
          refine Std.TransCmp.gt_of_gt_of_isGE (Std.OrientedCmp.gt_of_lt (h.lt_of_mem_right he)) ?_
          cases hcmp : cmp k startKey with
          | lt => exact absurd hcmp hk
          | eq | gt => rfl
        simp [hgt]
      rw [List.map_append, List.map_cons, List.filter_append, List.reverse_append]
      cases hk : cmp k startKey with
      | gt =>
          rw [List.filter_cons_of_neg (by simp [hk]), hdrop (by simp [hk]), List.reverse_nil,
            List.nil_append]
          simp only [startStack, Option.map_some, Option.getD_some, hk, if_true, Ordering.swap]
          exact ihl h.left stack
      | eq =>
          rw [List.filter_cons_of_pos (by simp [hk]), hdrop (by simp [hk]),
            hkeep (by simp [hk])]
          simp [startStack, hk, stackKeys, keysInOrder, Ordering.swap]
      | lt =>
          rw [List.filter_cons_of_pos (by simp [hk]), hkeep (by simp [hk])]
          simp only [startStack, Option.map_some, Option.getD_some, hk, if_true, Ordering.swap]
          rw [ihr h.of_cons_right]
          simp [stackKeys, keysInOrder]

/-- The keys from a start key on. -/
theorem keyEnumeratorFrom_eq {t : FLLRBNode κ ν} (h : Ascending cmp t.entries) (startKey : κ) :
    keyEnumeratorFrom cmp startKey t =
      (t.entries.map Prod.fst).filter fun k => decide (cmp k startKey ≠ .lt) := by
  rw [keyEnumeratorFrom, allObjects_eq_stackKeys, stackKeys_startStack h,
    stackKeys_nil, List.append_nil]

/-- The keys from a start key back. -/
theorem reverseKeyEnumeratorFrom_eq {t : FLLRBNode κ ν} (h : Ascending cmp t.entries)
    (startKey : κ) :
    reverseKeyEnumeratorFrom cmp startKey t =
      ((t.entries.map Prod.fst).filter fun k => decide (cmp k startKey ≠ .gt)).reverse := by
  rw [reverseKeyEnumeratorFrom, allObjects_eq_stackKeys, stackKeys_startStack_reverse h,
    stackKeys_nil, List.append_nil]

end StartKey

/-- The enumerator of a tree returns the keys of its entries. -/
theorem keyEnumerator_eq (t : FLLRBNode κ ν) :
    keyEnumerator cmp t = t.entries.map Prod.fst := by
  rw [keyEnumerator, allObjects_eq_stackKeys, stackKeys_startStack_none,
    stackKeys_nil, List.append_nil]
  rfl

/-- In reverse and without a start key, the enumerator of a tree gives nothing. -/
theorem reverseKeyEnumerator_eq (t : FLLRBNode κ ν) : reverseKeyEnumerator cmp t = [] := by
  rw [reverseKeyEnumerator, allObjects_eq_stackKeys, startStack_none_reverse, stackKeys_nil]

end FLLRBNode

end FirebaseLogin
