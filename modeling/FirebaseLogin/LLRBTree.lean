import FirebaseLogin.SortedEntries
import Mathlib.Algebra.Order.Group.Nat

/-!
# The Left-Leaning Red-Black Tree

The search tree of `FImmutableSortedDictionary` (`FLLRBValueNode.m`, `FLLRBEmptyNode.m`), in
which the database client keeps the children of a node once there are many. The functions
follow the source; what `remove` and `removeMin` do before they go down to a child has names
of its own (`stepLeft`, `stepRight`).

## Main results

* `check_eq_some_iff`: the source's own `check` accepts exactly the balanced trees.
* `insertKey_spec`: **an insertion keeps a tree balanced and acts on its entries as on a
  sorted list.**
* `two_pow_le_count`: the bound that `checkMaxDepth` tests.
-/

namespace FirebaseLogin

open SortedEntries

/-- The color of a node. -/
inductive FLLRBColor where
  | red
  | black
deriving DecidableEq

/-- The other color. -/
def FLLRBColor.flip : FLLRBColor → FLLRBColor
  | red => black
  | black => red

/-- Flipping a color twice gives it back. -/
@[simp]
theorem FLLRBColor.flip_flip (c : FLLRBColor) : c.flip.flip = c := by
  cases c with
  | red | black => rfl

/-- `FLLRBEmptyNode.m` and `FLLRBValueNode.m`: a node without a value, or a color, a left tree, a
key with its value, and a right tree. -/
inductive FLLRBNode (κ ν : Type) where
  | emptyNode
  | valueNode (color : FLLRBColor) (left : FLLRBNode κ ν) (key : κ) (value : ν)
      (right : FLLRBNode κ ν)

namespace FLLRBNode

variable {κ ν : Type}

/-- The left child. The empty node has none, and a message to none is answered as the empty
node answers it. -/
def left : FLLRBNode κ ν → FLLRBNode κ ν
  | emptyNode => emptyNode
  | valueNode _ l _ _ _ => l

/-- The right child. -/
def right : FLLRBNode κ ν → FLLRBNode κ ν
  | emptyNode => emptyNode
  | valueNode _ _ _ _ r => r

/-- `isEmpty`: only the empty node is. -/
def isEmpty : FLLRBNode κ ν → Bool
  | emptyNode => true
  | valueNode .. => false

/-- `isRed`; an empty node counts as black. -/
def isRed : FLLRBNode κ ν → Bool
  | emptyNode => false
  | valueNode c _ _ _ _ => c = .red

section Accessors

variable (c : FLLRBColor) (l : FLLRBNode κ ν) (k : κ) (v : ν) (r : FLLRBNode κ ν)

/-- The left tree of a value node. -/
@[simp]
theorem left_valueNode : (valueNode c l k v r).left = l := rfl

/-- The right tree of a value node. -/
@[simp]
theorem right_valueNode : (valueNode c l k v r).right = r := rfl

/-- A value node is not empty. -/
@[simp]
theorem isEmpty_valueNode : (valueNode c l k v r).isEmpty = false := rfl

/-- A value node is red when its color is. -/
@[simp]
theorem isRed_valueNode : (valueNode c l k v r).isRed = decide (c = .red) := rfl

/-- The empty node is not red. -/
@[simp]
theorem isRed_emptyNode : (emptyNode : FLLRBNode κ ν).isRed = false := rfl

/-- The empty node is empty. -/
@[simp]
theorem isEmpty_emptyNode : (emptyNode : FLLRBNode κ ν).isEmpty = true := rfl

end Accessors

/-- `count`: the number of the value nodes. -/
def count : FLLRBNode κ ν → Nat
  | emptyNode => 0
  | valueNode _ l _ _ r => l.count + 1 + r.count

/-- The entries in the order of `inorderTraversal`. -/
def entries : FLLRBNode κ ν → List (κ × ν)
  | emptyNode => []
  | valueNode _ l k v r => l.entries ++ (k, v) :: r.entries

/-- The smallest entry. -/
def min : FLLRBNode κ ν → Option (κ × ν)
  | emptyNode => none
  | valueNode _ l k v _ => if l.isEmpty then some (k, v) else l.min

/-- `maxKey`: the key of the rightmost value node. -/
def maxKey : FLLRBNode κ ν → Option κ
  | emptyNode => none
  | valueNode _ _ k _ r => if r.isEmpty then some k else r.maxKey

/-- `copyWith` another color; the empty node copies to itself. -/
def copyWithColor (c : FLLRBColor) : FLLRBNode κ ν → FLLRBNode κ ν
  | emptyNode => emptyNode
  | valueNode _ l k v r => valueNode c l k v r

/-- A copy with another left tree. -/
def copyWithLeft : FLLRBNode κ ν → FLLRBNode κ ν → FLLRBNode κ ν
  | emptyNode, _ => emptyNode
  | valueNode c _ k v r, l => valueNode c l k v r

/-- A copy with another right tree. -/
def copyWithRight : FLLRBNode κ ν → FLLRBNode κ ν → FLLRBNode κ ν
  | emptyNode, _ => emptyNode
  | valueNode c l k v _, r => valueNode c l k v r

/-- `rotateLeft`: the right tree comes to the top, and the node goes red below it. -/
def rotateLeft : FLLRBNode κ ν → FLLRBNode κ ν
  | valueNode c l k v (valueNode _ rl rk rv rr) => valueNode c (valueNode .red l k v rl) rk rv rr
  | _ => emptyNode

/-- `rotateRight`: the left tree comes to the top, and the node goes red below it. -/
def rotateRight : FLLRBNode κ ν → FLLRBNode κ ν
  | valueNode c (valueNode _ ll lk lv lr) k v r => valueNode c ll lk lv (valueNode .red lr k v r)
  | _ => emptyNode

/-- The other color at the root. -/
def flipped : FLLRBNode κ ν → FLLRBNode κ ν
  | emptyNode => emptyNode
  | valueNode c l k v r => valueNode c.flip l k v r

/-- `colorFlip`: the node and the roots of its two trees change their colors. -/
def colorFlip : FLLRBNode κ ν → FLLRBNode κ ν
  | emptyNode => emptyNode
  | valueNode c l k v r => valueNode c.flip l.flipped k v r.flipped

/-- `fixUp`: the three repairs after a change below the node, one after the other. -/
def fixUp (n : FLLRBNode κ ν) : FLLRBNode κ ν :=
  let n := if n.right.isRed && !n.left.isRed then n.rotateLeft else n
  let n := if n.left.isRed && n.left.left.isRed then n.rotateRight else n
  if n.left.isRed && n.right.isRed then n.colorFlip else n

/-- `moveRedLeft`: a red node is brought to the left before the descent there. -/
def moveRedLeft (n : FLLRBNode κ ν) : FLLRBNode κ ν :=
  let n := n.colorFlip
  if n.right.left.isRed then (n.copyWithRight n.right.rotateRight).rotateLeft.colorFlip else n

/-- `moveRedRight`: a red node is brought to the right before the descent there. -/
def moveRedRight (n : FLLRBNode κ ν) : FLLRBNode κ ν :=
  let n := n.colorFlip
  if n.left.left.isRed then n.rotateRight.colorFlip else n

/-- `insertKey:forValue:withComparator:` below the root, repairing every node on the way back. -/
def insertKey (cmp : κ → κ → Ordering) (aKey : κ) (aValue : ν) :
    FLLRBNode κ ν → FLLRBNode κ ν
  | emptyNode => valueNode .red emptyNode aKey aValue emptyNode
  | valueNode c l k v r =>
      match cmp aKey k with
      | .lt => (valueNode c (insertKey cmp aKey aValue l) k v r).fixUp
      | .eq => (valueNode c l k aValue r).fixUp
      | .gt => (valueNode c l k v (insertKey cmp aKey aValue r)).fixUp

/-- What `remove` and `removeMin` do before they go down to the left. -/
def stepLeft (n : FLLRBNode κ ν) : FLLRBNode κ ν :=
  if !n.left.isEmpty && !n.left.isRed && !n.left.left.isRed then n.moveRedLeft else n

/-- What `remove` does before it goes down to the right. -/
def stepRight (n : FLLRBNode κ ν) : FLLRBNode κ ν :=
  let n := if n.left.isRed then n.rotateRight else n
  if !n.right.isEmpty && !n.right.isRed && !n.right.left.isRed then n.moveRedRight else n

/-! ### Termination

A rotation may only lose entries, and a child has fewer entries than its parent. -/

/-- A rotation to the left adds no node. -/
theorem count_rotateLeft_le (n : FLLRBNode κ ν) : n.rotateLeft.count ≤ n.count := by
  unfold rotateLeft
  split
  · simp only [count]
    omega
  · simp [count]

/-- A rotation to the right adds no node. -/
theorem count_rotateRight_le (n : FLLRBNode κ ν) : n.rotateRight.count ≤ n.count := by
  unfold rotateRight
  split
  · simp only [count]
    omega
  · simp [count]

/-- A change of the color keeps the number of the nodes. -/
theorem count_flipped (n : FLLRBNode κ ν) : n.flipped.count = n.count := by
  cases n with
  | emptyNode | valueNode => rfl

/-- A color flip keeps the number of the nodes. -/
theorem count_colorFlip (n : FLLRBNode κ ν) : n.colorFlip.count = n.count := by
  cases n with
  | emptyNode => rfl
  | valueNode c l k v r => simp [colorFlip, count, count_flipped]

/-- A right tree that is not larger makes the copy no larger. -/
theorem count_copyWithRight_le {n r : FLLRBNode κ ν} (h : r.count ≤ n.right.count) :
    (n.copyWithRight r).count ≤ n.count := by
  cases n with
  | emptyNode => exact Nat.le_refl _
  | valueNode c l k v r' =>
      simp only [copyWithRight, count, right] at h ⊢
      omega

/-- A left tree that is not larger makes the copy no larger. -/
theorem count_copyWithLeft_le {n l : FLLRBNode κ ν} (h : l.count ≤ n.left.count) :
    (n.copyWithLeft l).count ≤ n.count := by
  cases n with
  | emptyNode => exact Nat.le_refl _
  | valueNode c l' k v r =>
      simp only [copyWithLeft, count, left] at h ⊢
      omega

/-- Moving a red node to the left adds no node. -/
theorem count_moveRedLeft_le (n : FLLRBNode κ ν) : n.moveRedLeft.count ≤ n.count := by
  simp only [moveRedLeft]
  split
  · rw [count_colorFlip]
    refine (count_rotateLeft_le _).trans ?_
    refine (count_copyWithRight_le (count_rotateRight_le _)).trans ?_
    exact (count_colorFlip n).le
  · exact (count_colorFlip n).le

/-- Moving a red node to the right adds no node. -/
theorem count_moveRedRight_le (n : FLLRBNode κ ν) : n.moveRedRight.count ≤ n.count := by
  simp only [moveRedRight]
  split
  · rw [count_colorFlip]
    exact (count_rotateRight_le _).trans (count_colorFlip n).le
  · exact (count_colorFlip n).le

/-- The step before a descent to the left adds no node. -/
theorem count_stepLeft_le (n : FLLRBNode κ ν) : n.stepLeft.count ≤ n.count := by
  unfold stepLeft
  split
  · exact count_moveRedLeft_le n
  · exact Nat.le_refl _

/-- The step before a descent to the right adds no node. -/
theorem count_stepRight_le (n : FLLRBNode κ ν) : n.stepRight.count ≤ n.count := by
  unfold stepRight
  extract_lets n₁
  have h₁ : n₁.count ≤ n.count := by
    unfold n₁
    split
    · exact count_rotateRight_le n
    · exact Nat.le_refl _
  split
  · exact (count_moveRedRight_le n₁).trans h₁
  · exact h₁

/-- The repairs add no node. -/
theorem count_fixUp_le (n : FLLRBNode κ ν) : n.fixUp.count ≤ n.count := by
  unfold fixUp
  extract_lets n₁ n₂
  have h₁ : n₁.count ≤ n.count := by
    unfold n₁
    split
    · exact count_rotateLeft_le n
    · exact Nat.le_refl _
  have h₂ : n₂.count ≤ n₁.count := by
    unfold n₂
    split
    · exact count_rotateRight_le n₁
    · exact Nat.le_refl _
  split
  · rw [count_colorFlip]
    exact h₂.trans h₁
  · exact h₂.trans h₁

/-- A left child has fewer entries than a tree that is not empty. -/
theorem count_left_lt {n : FLLRBNode κ ν} {m : Nat} (h : n.count ≤ m + 1) :
    n.left.count < m + 1 := by
  cases n with
  | emptyNode => exact Nat.succ_pos m
  | valueNode c l k v r =>
      simp only [left, count] at h ⊢
      omega

/-- The right tree of a node is smaller than the node, so that the removal can descend there. -/
theorem count_right_lt {n : FLLRBNode κ ν} {m : Nat} (h : n.count ≤ m + 1) :
    n.right.count < m + 1 := by
  cases n with
  | emptyNode => exact Nat.succ_pos m
  | valueNode c l k v r =>
      simp only [right, count] at h ⊢
      omega

/-! ### Removal -/

/-- `removeMin`: the tree without its smallest entry. -/
def removeMin : FLLRBNode κ ν → FLLRBNode κ ν
  | emptyNode => emptyNode
  | valueNode c l k v r =>
      if l.isEmpty then emptyNode
      else
        let n := (valueNode c l k v r).stepLeft
        (n.copyWithLeft n.left.removeMin).fixUp
termination_by t => t.count
decreasing_by
  have hstep := count_stepLeft_le (valueNode c l k v r)
  have hcount : (valueNode c l k v r).count = l.count + r.count + 1 := by
    simp only [count]
    omega
  rw [hcount] at hstep ⊢
  exact count_left_lt hstep

/-- The removal of the smallest entry adds no node. -/
theorem count_removeMin_le (t : FLLRBNode κ ν) : t.removeMin.count ≤ t.count := by
  induction hn : t.count using Nat.strong_induction_on generalizing t with
  | _ n ih =>
      cases t with
      | emptyNode => simp [removeMin, count]
      | valueNode c l k v r =>
          rw [removeMin]
          split
          · exact Nat.zero_le _
          · have hstep := count_stepLeft_le (valueNode c l k v r)
            have hcount : (valueNode c l k v r).count = l.count + r.count + 1 := by
              simp only [count]
              omega
            have hleft := count_left_lt (hstep.trans_eq hcount)
            refine (count_fixUp_le _).trans ?_
            refine (count_copyWithLeft_le ?_).trans (hstep.trans_eq hn)
            exact ih _ (by omega) _ rfl

/-- `remove:withComparator:` below the root; the recursion is on the number of the nodes, since the
steps on the way down rotate them. -/
def remove (cmp : κ → κ → Ordering) (aKey : κ) : FLLRBNode κ ν → FLLRBNode κ ν
  | emptyNode => emptyNode
  | valueNode c l k v r =>
      if cmp aKey k = .lt then
        let n := (valueNode c l k v r).stepLeft
        (n.copyWithLeft (remove cmp aKey n.left)).fixUp
      else
        match _h : (valueNode c l k v r).stepRight with
        | emptyNode => emptyNode
        | valueNode c' l' k' v' r' =>
            if cmp aKey k' = .eq then
              match r'.min with
              | none => emptyNode
              | some smallest =>
                  (valueNode c' l' smallest.1 smallest.2
                    (remove cmp aKey r'.removeMin)).fixUp
            else (valueNode c' l' k' v' (remove cmp aKey r')).fixUp
termination_by t => t.count
decreasing_by
  all_goals
    have hcount : (valueNode c l k v r).count = l.count + r.count + 1 := by
      simp only [count]
      omega
    rw [hcount]
  · exact count_left_lt ((count_stepLeft_le (valueNode c l k v r)).trans_eq hcount)
  · have hstep := (count_stepRight_le (valueNode c l k v r)).trans_eq hcount
    rw [_h] at hstep
    exact (count_removeMin_le r').trans_lt (count_right_lt hstep)
  · have hstep := (count_stepRight_le (valueNode c l k v r)).trans_eq hcount
    rw [_h] at hstep
    exact count_right_lt hstep

/-- The black depth of a tree; none where the source throws: a red node with a red child, a
red right child, or two depths that differ. -/
def check : FLLRBNode κ ν → Option Nat
  | emptyNode => some 0
  | valueNode c l _ _ r =>
      if c = .red ∧ l.isRed then none
      else if r.isRed then none
      else
        match l.check, r.check with
        | some blackDepth, some d =>
            if blackDepth ≠ d then none else some (blackDepth + if c = .red then 0 else 1)
        | _, _ => none

/-! ### Balanced trees -/

/-- A balanced tree with its color and its black depth: no red node has a red child, no right
child is red, and all paths have the same depth. -/
inductive Balanced : FLLRBColor → Nat → FLLRBNode κ ν → Prop
  | emptyNode : Balanced .black 0 .emptyNode
  | red {d : Nat} {l r : FLLRBNode κ ν} {k : κ} {v : ν} : Balanced .black d l →
      Balanced .black d r → Balanced .red d (.valueNode .red l k v r)
  | black {c : FLLRBColor} {d : Nat} {l r : FLLRBNode κ ν} {k : κ} {v : ν} : Balanced c d l →
      Balanced .black d r → Balanced .black (d + 1) (.valueNode .black l k v r)

variable {c cl cr : FLLRBColor} {d : Nat} {l r t : FLLRBNode κ ν} {k : κ} {v : ν}

/-- The color of a balanced tree is that of its root. -/
theorem Balanced.isRed_eq (h : Balanced c d t) : t.isRed = decide (c = .red) := by
  cases h with
  | emptyNode | red | black => rfl

/-- A balanced tree with a black root is not red. -/
theorem Balanced.isRed_of_black (h : Balanced .black d t) : t.isRed = false :=
  h.isRed_eq

/-- Below a red root the left tree is not red. -/
theorem Balanced.left_not_red (h : Balanced .red d t) : t.left.isRed = false := by
  cases h with
  | red hl hr => exact hl.isRed_of_black

/-- A balanced tree with a black root and no black depth is empty. -/
theorem Balanced.eq_emptyNode (h : Balanced .black 0 t) : t = .emptyNode := by
  cases h with
  | emptyNode => rfl

/-- A red tree. -/
theorem Balanced.of_red (h : Balanced .red d t) :
    ∃ l k v r, t = .valueNode .red l k v r ∧ Balanced .black d l ∧ Balanced .black d r := by
  cases h with
  | red hl hr => exact ⟨_, _, _, _, rfl, hl, hr⟩

/-- A black tree that is not empty. -/
theorem Balanced.of_black (h : Balanced .black (d + 1) t) :
    ∃ c l k v r, t = .valueNode .black l k v r ∧ Balanced c d l ∧ Balanced .black d r := by
  cases h with
  | black hl hr => exact ⟨_, _, _, _, _, rfl, hl, hr⟩

/-- The other color at the root of a tree moves its depth by one. -/
theorem Balanced.flipped_red (h : Balanced .red d t) : Balanced .black (d + 1) t.flipped := by
  cases h with
  | red hl hr => exact .black hl hr

/-- **The source's own check accepts exactly the balanced trees.** -/
theorem check_eq_some_iff (t : FLLRBNode κ ν) (d : Nat) :
    t.check = some d ↔ ∃ c, Balanced c d t := by
  constructor
  · intro h
    induction t generalizing d with
    | emptyNode =>
        obtain rfl := Option.some.inj h
        exact ⟨_, .emptyNode⟩
    | valueNode c l k v r ihl ihr =>
        by_cases hred : c = .red ∧ l.isRed = true
        · rw [check, if_pos hred] at h
          cases h
        by_cases hright : r.isRed = true
        · rw [check, if_neg hred, if_pos hright] at h
          cases h
        rw [check, if_neg hred, if_neg hright] at h
        cases hl : l.check with
        | none => simp [hl] at h
        | some dl =>
            cases hr : r.check with
            | none => simp [hl, hr] at h
            | some dr =>
                simp only [hl, hr, ne_eq, ite_not] at h
                by_cases hd : dl = dr
                · subst hd
                  rw [if_pos rfl] at h
                  obtain rfl := Option.some.inj h
                  obtain ⟨cl, hl⟩ := ihl dl hl
                  obtain ⟨cr, hr⟩ := ihr dl hr
                  have hcr : cr = .black := by
                    cases cr with
                    | red => exact absurd hr.isRed_eq hright
                    | black => rfl
                  subst hcr
                  cases c with
                  | red =>
                      cases cl with
                      | red => exact absurd ⟨rfl, hl.isRed_eq⟩ hred
                      | black => exact ⟨_, .red hl hr⟩
                  | black => exact ⟨_, .black hl hr⟩
                · rw [if_neg hd] at h
                  cases h
  · rintro ⟨c, h⟩
    induction h with
    | emptyNode => rfl
    | red hl hr ihl ihr => simp [check, hl.isRed_of_black, hr.isRed_of_black, ihl, ihr]
    | black hl hr ihl ihr => simp [check, hr.isRed_of_black, ihl, ihr]

/-- A tree has as many entries as value nodes. -/
theorem length_entries (t : FLLRBNode κ ν) : t.entries.length = t.count := by
  induction t with
  | emptyNode => rfl
  | valueNode c l k v r ihl ihr =>
      simp only [entries, count, List.length_append, List.length_cons, ihl, ihr]
      omega

/-- The test of `checkMaxDepth`: a tree has at least as many entries as a full one of its black
depth. -/
theorem Balanced.two_pow_le_count (h : Balanced c d t) : 2 ^ d ≤ t.count + 1 := by
  induction h with
  | emptyNode => exact Nat.le_refl _
  | red hl hr ihl ihr =>
      simp only [count]
      omega
  | black hl hr ihl ihr =>
      simp only [count, Nat.pow_succ]
      omega

/-! ### Repairs -/

/-- A node with a black right tree and no two reds in a row on the left is not repaired. -/
theorem fixUp_of_not_red (hr : r.isRed = false) (hl : l.isRed = false ∨ l.left.isRed = false) :
    (valueNode c l k v r).fixUp = valueNode c l k v r := by
  rcases hl with hl | hl
  · simp [fixUp, hr, hl]
  · simp [fixUp, hr, hl]

/-- A red right tree beside a black left one is rotated to the left. -/
theorem fixUp_of_right_red {rl rr : FLLRBNode κ ν} {rk : κ} {rv : ν} (hl : l.isRed = false)
    (hrr : rr.isRed = false) :
    (valueNode c l k v (valueNode .red rl rk rv rr)).fixUp =
      valueNode c (valueNode .red l k v rl) rk rv rr := by
  simp [fixUp, rotateLeft, hl, hrr]

/-- Two red trees are turned black, and the node changes its color. -/
theorem fixUp_of_both_red (hl : l.isRed = true) (hll : l.left.isRed = false)
    (hr : r.isRed = true) :
    (valueNode c l k v r).fixUp = valueNode c.flip l.flipped k v r.flipped := by
  simp [fixUp, hl, hll, hr, colorFlip]

/-- Two reds in a row on the left are rotated to the right and flipped. -/
theorem fixUp_of_left_left_red {ll lr : FLLRBNode κ ν} {lk : κ} {lv : ν}
    (hll : ll.isRed = true) (hr : r.isRed = false) :
    (valueNode c (valueNode .red ll lk lv lr) k v r).fixUp =
      valueNode c.flip ll.flipped lk lv (valueNode .black lr k v r) := by
  simp [fixUp, rotateRight, hll, hr, colorFlip, flipped, FLLRBColor.flip]

/-- The repair of a black node both of whose children are balanced. It stays black unless both
children are red. -/
theorem Balanced.fixUp_black (hl : Balanced cl d l) (hr : Balanced cr d r) :
    ∃ c', Balanced c' (d + 1) (valueNode .black l k v r).fixUp ∧
      (cl = .black ∨ cr = .black → c' = .black) := by
  cases cr with
  | black =>
      have hfix : (valueNode .black l k v r).fixUp = valueNode .black l k v r := by
        apply fixUp_of_not_red hr.isRed_of_black
        cases cl with
        | red => exact .inr hl.left_not_red
        | black => exact .inl hl.isRed_of_black
      rw [hfix]
      exact ⟨.black, .black hl hr, fun _ => rfl⟩
  | red =>
      cases cl with
      | black =>
          obtain ⟨rl, rk, rv, rr, rfl, hrl, hrr⟩ := hr.of_red
          rw [fixUp_of_right_red hl.isRed_of_black hrr.isRed_of_black]
          exact ⟨.black, .black (.red hl hrl) hrr, fun _ => rfl⟩
      | red =>
          rw [fixUp_of_both_red hl.isRed_eq hl.left_not_red hr.isRed_eq]
          refine ⟨.red, .red hl.flipped_red hr.flipped_red, ?_⟩
          rintro (h | h)
          · cases h
          · cases h

/-- A red root whose left child may be red as well, which the parent or a black root repairs. -/
def RedRoot (d : Nat) (t : FLLRBNode κ ν) : Prop :=
  ∃ cl l k v r, t = .valueNode .red l k v r ∧ Balanced cl d l ∧ Balanced .black d r

/-- The repair of a red node one of whose children is black. -/
theorem Balanced.fixUp_red (hl : Balanced cl d l) (hr : Balanced cr d r)
    (h : cl = .black ∨ cr = .black) : RedRoot d (valueNode .red l k v r).fixUp := by
  cases cr with
  | black =>
      have hfix : (valueNode .red l k v r).fixUp = valueNode .red l k v r := by
        apply fixUp_of_not_red hr.isRed_of_black
        cases cl with
        | red => exact .inr hl.left_not_red
        | black => exact .inl hl.isRed_of_black
      rw [hfix]
      exact ⟨cl, l, k, v, r, rfl, hl, hr⟩
  | red =>
      obtain rfl : cl = .black := h.resolve_right (by decide)
      obtain ⟨rl, rk, rv, rr, rfl, hrl, hrr⟩ := hr.of_red
      rw [fixUp_of_right_red hl.isRed_of_black hrr.isRed_of_black]
      exact ⟨.red, _, _, _, _, rfl, .red hl hrl, hrr⟩

/-- The repair of a black node whose left child is a red root. -/
theorem RedRoot.fixUp_black (hl : RedRoot d l) (hr : Balanced .black d r) :
    ∃ c', Balanced c' (d + 1) (valueNode .black l k v r).fixUp := by
  obtain ⟨cl, ll, lk, lv, lr, rfl, hll, hlr⟩ := hl
  cases cl with
  | black =>
      obtain ⟨c', h, -⟩ := Balanced.fixUp_black (Balanced.red hll hlr) hr
      exact ⟨c', h⟩
  | red =>
      rw [fixUp_of_left_left_red hll.isRed_eq hr.isRed_of_black]
      exact ⟨.red, .red hll.flipped_red (.black hlr hr)⟩

/-- A tree with a red root, turned black, is balanced at one more black node of depth. -/
theorem RedRoot.copyWithColor_black (h : RedRoot d t) :
    Balanced .black (d + 1) (t.copyWithColor .black) := by
  obtain ⟨cl, l, k, v, r, rfl, hl, hr⟩ := h
  exact .black hl hr

/-- A balanced tree stays so when its root is turned black. -/
theorem Balanced.copyWithColor_black (h : Balanced c d t) :
    ∃ d', Balanced .black d' (t.copyWithColor .black) := by
  cases h with
  | emptyNode => exact ⟨0, .emptyNode⟩
  | red hl hr => exact ⟨_, .black hl hr⟩
  | black hl hr => exact ⟨_, .black hl hr⟩

/-! ### Entries -/

/-- A change of the color keeps the entries. -/
theorem entries_flipped (n : FLLRBNode κ ν) : n.flipped.entries = n.entries := by
  cases n with
  | emptyNode | valueNode => rfl

/-- A color flip keeps the entries. -/
theorem entries_colorFlip (n : FLLRBNode κ ν) : n.colorFlip.entries = n.entries := by
  cases n with
  | emptyNode => rfl
  | valueNode c l k v r => simp [colorFlip, entries, entries_flipped]

/-- A rotation to the left keeps the entries. -/
theorem entries_rotateLeft {n : FLLRBNode κ ν} (h : n.right.isRed = true) :
    n.rotateLeft.entries = n.entries := by
  cases n with
  | emptyNode => cases h
  | valueNode c l k v r =>
      cases r with
      | emptyNode => cases h
      | valueNode => simp [rotateLeft, entries]

/-- A rotation to the right keeps the entries. -/
theorem entries_rotateRight {n : FLLRBNode κ ν} (h : n.left.isRed = true) :
    n.rotateRight.entries = n.entries := by
  cases n with
  | emptyNode => cases h
  | valueNode c l k v r =>
      cases l with
      | emptyNode => cases h
      | valueNode => simp [rotateRight, entries]

/-- The repairs keep the entries. -/
theorem entries_fixUp (n : FLLRBNode κ ν) : n.fixUp.entries = n.entries := by
  unfold fixUp
  extract_lets n₁ n₂
  have h₁ : n₁.entries = n.entries := by
    unfold n₁
    split
    · rename_i h
      exact entries_rotateLeft (Bool.and_eq_true_iff.mp h).1
    · rfl
  have h₂ : n₂.entries = n₁.entries := by
    unfold n₂
    split
    · rename_i h
      exact entries_rotateRight (Bool.and_eq_true_iff.mp h).1
    · rfl
  split
  · rw [entries_colorFlip, h₂, h₁]
  · rw [h₂, h₁]

/-- Another color of the root keeps the entries. -/
theorem entries_copyWithColor (c : FLLRBColor) (n : FLLRBNode κ ν) :
    (n.copyWithColor c).entries = n.entries := by
  cases n with
  | emptyNode | valueNode => rfl

/-! ### Insertion -/

variable {cmp : κ → κ → Ordering} {aKey : κ}

/-- An insertion into a black tree keeps it balanced, and one into a red tree leaves at most
a red left child to be repaired by the parent. -/
theorem Balanced.insertKey (h : Balanced c d t) (cmp : κ → κ → Ordering) (aKey : κ) (aValue : ν) :
    (c = .black → ∃ c', Balanced c' d (insertKey cmp aKey aValue t)) ∧
      (c = .red → RedRoot d (insertKey cmp aKey aValue t)) := by
  induction h with
  | emptyNode => exact ⟨fun _ => ⟨.red, .red .emptyNode .emptyNode⟩, fun h => by cases h⟩
  | red hl hr ihl ihr =>
      refine ⟨fun h => (by cases h), fun _ => ?_⟩
      rw [FLLRBNode.insertKey]
      split
      · obtain ⟨c', hl'⟩ := ihl.1 rfl
        exact hl'.fixUp_red hr (.inr rfl)
      · exact hl.fixUp_red hr (.inr rfl)
      · obtain ⟨c', hr'⟩ := ihr.1 rfl
        exact hl.fixUp_red hr' (.inl rfl)
  | @black cl d l r k v hl hr ihl ihr =>
      refine ⟨fun _ => ?_, fun h => by cases h⟩
      rw [FLLRBNode.insertKey]
      split
      · cases cl with
        | red => exact (ihl.2 rfl).fixUp_black hr
        | black =>
            obtain ⟨c', hl'⟩ := ihl.1 rfl
            obtain ⟨c'', h, -⟩ := hl'.fixUp_black hr
            exact ⟨c'', h⟩
      · obtain ⟨c', h, -⟩ := hl.fixUp_black hr
        exact ⟨c', h⟩
      · obtain ⟨c', hr'⟩ := ihr.1 rfl
        obtain ⟨c'', h, -⟩ := hl.fixUp_black hr'
        exact ⟨c'', h⟩

variable [Std.TransCmp cmp]

/-- An insertion acts on the entries as on a sorted list. A key that is there already stays. -/
theorem entries_insertKey (h : Ascending cmp t.entries) (aKey : κ) (aValue : ν) :
    (insertKey cmp aKey aValue t).entries =
      insert cmp (keptKey cmp aKey t.entries, aValue) t.entries := by
  induction t with
  | emptyNode => rfl
  | valueNode c l k v r ihl ihr =>
      have hkept : ∀ x : κ, cmp (keptKey cmp aKey (valueNode c l k v r).entries) x = cmp aKey x :=
        fun x => Std.TransCmp.congr_left (cmp_keptKey aKey _)
      rw [insertKey]
      rw [entries] at h hkept ⊢
      split
      · rename_i hlt
        rw [insert_of_lt ((hkept k).trans hlt), keptKey_of_lt h hlt, ← ihl h.left, entries_fixUp,
          entries]
      · rename_i heq
        rw [insert_of_eq h ((hkept k).trans heq), keptKey_of_eq h heq, entries_fixUp, entries]
      · rename_i hgt
        rw [insert_of_gt h ((hkept k).trans hgt), keptKey_of_gt h hgt, ← ihr h.of_cons_right,
          entries_fixUp, entries]

/-- **Insertion.** A balanced tree in order stays so, and gets the entry. -/
theorem insertKey_spec (hb : Balanced .black d t) (h : Ascending cmp t.entries) (aKey : κ)
    (aValue : ν) :
    (∃ d', Balanced .black d' ((insertKey cmp aKey aValue t).copyWithColor .black)) ∧
      ((insertKey cmp aKey aValue t).copyWithColor .black).entries =
        insert cmp (keptKey cmp aKey t.entries, aValue) t.entries := by
  obtain ⟨c', hb'⟩ := (hb.insertKey cmp aKey aValue).1 rfl
  refine ⟨hb'.copyWithColor_black, ?_⟩
  rw [entries_copyWithColor, entries_insertKey h]

end FLLRBNode

end FirebaseLogin
