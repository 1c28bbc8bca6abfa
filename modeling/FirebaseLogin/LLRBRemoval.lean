import FirebaseLogin.LLRBTree

/-!
# Removal from the Left-Leaning Red-Black Tree

`remove` deletes the key a second time: after the smallest entry of the right subtree has
taken the place of the deleted one, it goes on to remove the key from that subtree, where no
entry has it, and without the red link that the descent relies on. `remove` also starts at a
black root whose children are both black. Neither does any harm: the first leaves the color
and the depth of the subtree as they are, and the second shows at the root only.

## Main results

* `Balanced.remove_of_lt_all`: the second removal changes nothing.
* `remove_spec`: **a removal keeps a tree balanced and acts on its entries as on a sorted
  list.**
-/

namespace FirebaseLogin

open SortedEntries

namespace FLLRBNode

variable {κ ν : Type} {cmp : κ → κ → Ordering} [Std.TransCmp cmp] {aKey : κ}
  {c cl cr : FLLRBColor} {d : Nat} {l r t : FLLRBNode κ ν} {k : κ} {v : ν}

/-! ### The way down -/

/-- The trees a removal may go down to: red ones, and black ones with a red left child. -/
inductive Deletable : FLLRBColor → Nat → FLLRBNode κ ν → Prop
  | red {d : Nat} {t : FLLRBNode κ ν} : Balanced .red d t → Deletable .red d t
  | leftRed {d : Nat} {l r : FLLRBNode κ ν} {k : κ} {v : ν} : Balanced .red d l →
      Balanced .black d r → Deletable .black (d + 1) (.valueNode .black l k v r)

omit [Std.TransCmp cmp] in
/-- A tree from which something can be removed is balanced. -/
theorem Deletable.balanced (h : Deletable c d t) : Balanced c d t := by
  cases h with
  | red h => exact h
  | leftRed hl hr => exact .black hl hr

/-- The step to the left at a node with black children: either the left child can be gone down
to, or both children have become red. -/
theorem stepLeft_cases (c : FLLRBColor) (k : κ) (v : ν) (hl : Balanced .black (d + 1) l)
    (hr : Balanced .black (d + 1) r) :
    ∃ c' l' k' v' r', (valueNode c l k v r).stepLeft = valueNode c' l' k' v' r' ∧
      (valueNode c' l' k' v' r').entries = (valueNode c l k v r).entries ∧
      (k' = k ∨ (k', v') ∈ r.entries) ∧
      (c' = c ∧ Deletable .black (d + 1) l' ∧ Balanced .black (d + 1) r' ∨
        c' = c.flip ∧ Balanced .red d l' ∧ Balanced .red d r') := by
  obtain ⟨cll, ll, lk, lv, lr, rfl, hll, hlr⟩ := hl.of_black
  obtain ⟨crl, rl, rk, rv, rr, rfl, hrl, hrr⟩ := hr.of_black
  cases cll with
  | red =>
      refine ⟨c, _, k, v, _, ?_, rfl, .inl rfl, .inl ⟨rfl, .leftRed hll hlr, hr⟩⟩
      simp [stepLeft, hll.isRed_eq]
  | black =>
      cases crl with
      | red =>
          obtain ⟨a, x, xv, b, rfl, ha, hb⟩ := hrl.of_red
          refine ⟨c, .valueNode .black (.valueNode .red ll lk lv lr) k v a, x, xv,
            .valueNode .black b rk rv rr, ?_, ?_, .inr ?_,
            .inl ⟨rfl, .leftRed (.red hll hlr) ha, .black hb hrr⟩⟩
          · simp [stepLeft, hll.isRed_of_black, moveRedLeft, colorFlip, flipped, copyWithRight,
              rotateRight, rotateLeft, FLLRBColor.flip]
            cases c with
            | red | black => rfl
          · simp [entries]
          · simp [entries]
      | black =>
          refine ⟨c.flip, .valueNode .red ll lk lv lr, k, v, .valueNode .red rl rk rv rr, ?_, ?_,
            .inl rfl, .inr ⟨rfl, .red hll hlr, .red hrl hrr⟩⟩
          · simp [stepLeft, hll.isRed_of_black, hrl.isRed_of_black, moveRedLeft, colorFlip,
              flipped, FLLRBColor.flip]
          · simp [entries]

/-- The step to the right at a node with black children: the right child can be gone down to,
or the node has become the root of the right child, which leans to the right, or both
children have become red. -/
theorem stepRight_cases (c : FLLRBColor) (k : κ) (v : ν) (hl : Balanced .black (d + 1) l)
    (hr : Balanced .black (d + 1) r) :
    ((valueNode c l k v r).stepRight = valueNode c l k v r ∧ Deletable .black (d + 1) r) ∨
      (∃ l' k' v' rl rr, (valueNode c l k v r).stepRight =
          valueNode c l' k' v' (valueNode .black rl k v rr) ∧
        (valueNode c l' k' v' (valueNode .black rl k v rr)).entries =
          (valueNode c l k v r).entries ∧
        (k', v') ∈ l.entries ∧ Balanced .black (d + 1) l' ∧ Balanced .black d rl ∧
        Balanced .red d rr) ∨
      ∃ l' r', (valueNode c l k v r).stepRight = valueNode c.flip l' k v r' ∧
        l'.entries = l.entries ∧ r'.entries = r.entries ∧ Balanced .red d l' ∧
        Balanced .red d r' := by
  have hlred := hl.isRed_of_black
  obtain ⟨cll, ll, lk, lv, lr, rfl, hll, hlr⟩ := hl.of_black
  obtain ⟨crl, rl, rk, rv, rr, rfl, hrl, hrr⟩ := hr.of_black
  cases crl with
  | red =>
      refine .inl ⟨?_, .leftRed hrl hrr⟩
      simp [stepRight, hrl.isRed_eq]
  | black =>
      cases cll with
      | red =>
          obtain ⟨a, x, xv, b, rfl, ha, hb⟩ := hll.of_red
          refine .inr (.inl ⟨.valueNode .black a x xv b, lk, lv, lr, .valueNode .red rl rk rv rr,
            ?_, ?_, ?_, .black ha hb, hlr, .red hrl hrr⟩)
          · simp [stepRight, hrl.isRed_of_black, moveRedRight, colorFlip, flipped, rotateRight,
              FLLRBColor.flip]
            cases c with
            | red | black => rfl
          · simp [entries]
          · simp [entries]
      | black =>
          refine .inr (.inr ⟨.valueNode .red ll lk lv lr, .valueNode .red rl rk rv rr, ?_, rfl, rfl,
            .red hll hlr, .red hrl hrr⟩)
          simp [stepRight, hll.isRed_of_black, hrl.isRed_of_black, moveRedRight, colorFlip,
            flipped, FLLRBColor.flip]

/-! ### The smallest entry -/

/-- The smallest entry is the first one. -/
theorem min_eq_head? (t : FLLRBNode κ ν) : t.min = t.entries.head? := by
  induction t with
  | emptyNode => rfl
  | valueNode c l k v r ihl ihr =>
      cases l with
      | emptyNode => rfl
      | valueNode cl ll lk lv lr =>
          rw [min, if_neg (by simp), ihl]
          simp [entries]

/-- The removal of the smallest entry goes on in the left tree. -/
theorem removeMin_of_step {c' : FLLRBColor} {l' r' : FLLRBNode κ ν} {k' : κ} {v' : ν}
    (hl : l.isEmpty = false)
    (hs : (valueNode c l k v r).stepLeft = valueNode c' l' k' v' r') :
    (valueNode c l k v r).removeMin = (valueNode c' l'.removeMin k' v' r').fixUp := by
  rw [removeMin, if_neg (by simp [hl])]
  simp only [hs, left_valueNode, copyWithLeft]

/-- Without a left tree the root is the smallest entry. -/
theorem removeMin_of_left_empty :
    (valueNode c (.emptyNode : FLLRBNode κ ν) k v r).removeMin = .emptyNode := by
  rw [removeMin, if_pos isEmpty_emptyNode]

/-- The children of a node have fewer entries than any tree with the entries of the node. -/
theorem count_lt_of_entries (h : (valueNode c l k v r).entries = t.entries) :
    l.count < t.count ∧ r.count < t.count := by
  have hlength := congrArg List.length h
  rw [length_entries, length_entries, count] at hlength
  omega

/-- A tree from which something can be removed has entries. -/
theorem Deletable.entries_ne_nil (h : Deletable c d t) : t.entries ≠ [] := by
  cases h with
  | red h =>
      obtain ⟨l, k, v, r, rfl, -, -⟩ := h.of_red
      simp [entries]
  | leftRed => simp [entries]

/-- What a removal below the left child does to the entries of the whole tree. -/
theorem entries_removeMin_left (h : (valueNode c l k v r).entries = t.entries)
    (hne : l.entries ≠ []) (hl : l.removeMin.entries = l.entries.tail) :
    (valueNode c l.removeMin k v r).fixUp.entries = t.entries.tail := by
  rw [entries_fixUp, ← h, entries, entries, hl, List.tail_append_of_ne_nil hne]

/-- The removal of the smallest entry keeps the depth, and a black tree black. -/
theorem Deletable.removeMin_spec (h : Deletable c d t) :
    (∃ c', Balanced c' d t.removeMin ∧ (c = .black → c' = .black)) ∧
      t.removeMin.entries = t.entries.tail := by
  induction hn : t.count using Nat.strong_induction_on generalizing t c d with
  | _ n ih =>
      subst hn
      cases h with
      | leftRed hl hr =>
          rename_i d l r k v
          have hstep : (valueNode .black l k v r).stepLeft = valueNode .black l k v r := by
            simp [stepLeft, hl.isRed_eq]
          have hempty : l.isEmpty = false := by
            cases hl with
            | red => rfl
          obtain ⟨⟨c', hl', -⟩, hmin⟩ := ih _ (count_lt_of_entries rfl).1 (.red hl) rfl
          obtain ⟨c'', hb, hblack⟩ := hl'.fixUp_black (k := k) (v := v) hr
          rw [removeMin_of_step hempty hstep]
          exact ⟨⟨c'', hb, fun _ => hblack (.inr rfl)⟩,
            entries_removeMin_left rfl (Deletable.red hl).entries_ne_nil hmin⟩
      | red h =>
          obtain ⟨l, k, v, r, rfl, hl, hr⟩ := h.of_red
          cases d with
          | zero =>
              obtain rfl := hl.eq_emptyNode
              obtain rfl := hr.eq_emptyNode
              rw [removeMin_of_left_empty]
              exact ⟨⟨.black, .emptyNode, fun _ => rfl⟩, rfl⟩
          | succ d =>
              have hempty : l.isEmpty = false := by
                cases hl with
                | black => rfl
              obtain ⟨c', l', k', v', r', hstep, heq, -, hcases⟩ :=
                stepLeft_cases .red k v hl hr
              rw [removeMin_of_step hempty hstep]
              rcases hcases with ⟨rfl, hl', hr'⟩ | ⟨rfl, hl', hr'⟩
              · obtain ⟨⟨c'', hb, hblack⟩, hmin⟩ := ih _ (count_lt_of_entries heq).1 hl' rfl
                obtain rfl := hblack rfl
                refine ⟨⟨.red, ?_, fun h => by cases h⟩,
                  entries_removeMin_left heq hl'.entries_ne_nil hmin⟩
                rw [fixUp_of_not_red hr'.isRed_of_black (.inl hb.isRed_of_black)]
                exact .red hb hr'
              · obtain ⟨⟨c'', hb, -⟩, hmin⟩ := ih _ (count_lt_of_entries heq).1 (.red hl') rfl
                obtain ⟨c₃, hb, -⟩ := hb.fixUp_black (k := k') (v := v') hr'
                exact ⟨⟨c₃, hb, fun h => by cases h⟩,
                  entries_removeMin_left heq (Deletable.red hl').entries_ne_nil hmin⟩

/-! ### Removal, step by step -/

section Steps

variable {c' : FLLRBColor} {l' r' : FLLRBNode κ ν} {k' : κ} {v' : ν} {e : κ × ν}

omit [Std.TransCmp cmp] in
/-- Nothing is removed from the empty tree. -/
theorem remove_emptyNode : remove cmp aKey (.emptyNode : FLLRBNode κ ν) = .emptyNode := by
  rw [remove]

omit [Std.TransCmp cmp] in
/-- The removal of a smaller key goes on in the left tree. -/
theorem remove_of_lt (hk : cmp aKey k = .lt)
    (hs : (valueNode c l k v r).stepLeft = valueNode c' l' k' v' r') :
    remove cmp aKey (valueNode c l k v r) =
      (valueNode c' (remove cmp aKey l') k' v' r').fixUp := by
  rw [remove, if_pos hk]
  simp only [hs, left_valueNode, copyWithLeft]

omit [Std.TransCmp cmp] in
/-- The removal of a larger key goes on in the right tree. -/
theorem remove_of_ne (hk : cmp aKey k ≠ .lt)
    (hs : (valueNode c l k v r).stepRight = valueNode c' l' k' v' r')
    (hk' : cmp aKey k' ≠ .eq) :
    remove cmp aKey (valueNode c l k v r) =
      (valueNode c' l' k' v' (remove cmp aKey r')).fixUp := by
  rw [remove, if_neg hk]
  split
  · rename_i heq
    rw [hs] at heq
    cases heq
  · rename_i heq
    rw [hs] at heq
    cases heq
    rw [if_neg hk']

omit [Std.TransCmp cmp] in
/-- The root is replaced by the smallest entry of its right tree. -/
theorem remove_of_eq (hk : cmp aKey k ≠ .lt)
    (hs : (valueNode c l k v r).stepRight = valueNode c' l' k' v' r')
    (hk' : cmp aKey k' = .eq) (hmin : r'.min = some e) :
    remove cmp aKey (valueNode c l k v r) =
      (valueNode c' l' e.1 e.2 (remove cmp aKey r'.removeMin)).fixUp := by
  rw [remove, if_neg hk]
  split
  · rename_i heq
    rw [hs] at heq
    cases heq
  · rename_i heq
    rw [hs] at heq
    cases heq
    rw [if_pos hk', hmin]

omit [Std.TransCmp cmp] in
/-- A root without a right tree is removed with its node. -/
theorem remove_of_eq_of_empty (hk : cmp aKey k ≠ .lt)
    (hs : (valueNode c l k v r).stepRight = valueNode c' l' k' v' .emptyNode)
    (hk' : cmp aKey k' = .eq) :
    remove cmp aKey (valueNode c l k v r) = .emptyNode := by
  rw [remove, if_neg hk]
  split
  · rfl
  · rename_i heq
    rw [hs] at heq
    cases heq
    rw [if_pos hk']
    rfl

end Steps

omit [Std.TransCmp cmp] in
/-- **The second removal.** Removing a key below all others from any balanced tree changes
neither its color nor its depth nor its entries. -/
theorem Balanced.remove_of_lt_all (h : Balanced c d t)
    (hk : ∀ e ∈ t.entries, cmp aKey e.1 = .lt) :
    Balanced c d (remove cmp aKey t) ∧ (remove cmp aKey t).entries = t.entries := by
  induction hn : t.count using Nat.strong_induction_on generalizing t c d with
  | _ n ih =>
      subst hn
      cases t with
      | emptyNode =>
          rw [remove_emptyNode]
          exact ⟨h, rfl⟩
      | valueNode c₀ l k v r =>
          have hkey : cmp aKey k = .lt := hk (k, v) (by simp [entries])
          -- the children, and that two black ones of their depth make a tree again
          obtain ⟨cl, dl, hl, hr, hc, hmk⟩ : ∃ cl dl, Balanced cl dl l ∧ Balanced .black dl r ∧
              c₀ = c ∧ ∀ {l' r' : FLLRBNode κ ν} {k' : κ} {v' : ν} {cl' : FLLRBColor},
                Balanced cl' dl l' → Balanced .black dl r' → (cl' = .black ∨ cl' = cl) →
                  Balanced c d (valueNode c l' k' v' r') := by
            cases h with
            | red hl hr =>
                refine ⟨_, _, hl, hr, rfl, fun hl' hr' hcl => ?_⟩
                rw [or_self] at hcl
                subst hcl
                exact .red hl' hr'
            | black hl hr => exact ⟨_, _, hl, hr, rfl, fun hl' hr' _ => .black hl' hr'⟩
          subst hc
          -- where the tree is not changed on the way down
          have hstay : (valueNode c₀ l k v r).stepLeft = valueNode c₀ l k v r →
              Balanced c₀ d (remove cmp aKey (valueNode c₀ l k v r)) ∧
                (remove cmp aKey (valueNode c₀ l k v r)).entries =
                  (valueNode c₀ l k v r).entries := by
            intro hstep
            obtain ⟨hl', hentries⟩ := ih _ (count_lt_of_entries rfl).1 hl
              (fun e he => hk e (by simp [entries, he])) rfl
            rw [remove_of_lt hkey hstep, fixUp_of_not_red hr.isRed_of_black]
            · exact ⟨hmk hl' hr (.inr rfl), by rw [entries, entries, hentries]⟩
            · cases cl with
              | red => exact .inr hl'.left_not_red
              | black => exact .inl hl'.isRed_of_black
          cases cl with
          | red => exact hstay (by simp [stepLeft, hl.isRed_eq])
          | black =>
              cases dl with
              | zero =>
                  obtain rfl := hl.eq_emptyNode
                  exact hstay (by simp [stepLeft])
              | succ dl =>
                  obtain ⟨c', l', k', v', r', hstep, heq, -, hcases⟩ :=
                    stepLeft_cases c₀ k v hl hr
                  have hk' : ∀ e ∈ l'.entries, cmp aKey e.1 = .lt := by
                    intro e he
                    refine hk e ?_
                    rw [← heq, entries]
                    exact List.mem_append_left _ he
                  have hsmaller := (count_lt_of_entries heq).1
                  rw [remove_of_lt hkey hstep]
                  rcases hcases with ⟨rfl, hl', hr'⟩ | ⟨rfl, hl', hr'⟩
                  · obtain ⟨hb, hentries⟩ := ih _ hsmaller hl'.balanced hk' rfl
                    rw [fixUp_of_not_red hr'.isRed_of_black (.inl hb.isRed_of_black)]
                    refine ⟨hmk hb hr' (.inl rfl), ?_⟩
                    rw [entries, hentries, ← entries, heq]
                  · obtain ⟨hb, hentries⟩ := ih _ hsmaller hl' hk' rfl
                    refine ⟨?_, ?_⟩
                    · rw [fixUp_of_both_red hb.isRed_eq hb.left_not_red hr'.isRed_eq,
                        FLLRBColor.flip_flip]
                      exact hmk hb.flipped_red hr'.flipped_red (.inl rfl)
                    · rw [entries_fixUp, entries, hentries, ← heq, entries]

/-- What a removal does to a tree that it may go down to. -/
def Removed (cmp : κ → κ → Ordering) (aKey : κ) (c : FLLRBColor) (d : Nat)
    (t : FLLRBNode κ ν) : Prop :=
  (∃ c', Balanced c' d (remove cmp aKey t) ∧ (c = .black → c' = .black)) ∧
    (remove cmp aKey t).entries = erase cmp aKey t.entries

/-- What a removal on the right of an unchanged key gives: a node whose repair is the result. -/
theorem remove_right {c' : FLLRBColor} {l' r' : FLLRBNode κ ν} {v' : ν} {dr : Nat}
    (hasc : Ascending cmp (valueNode c l k v r).entries) (hk : cmp aKey k ≠ .lt)
    (hs : (valueNode c l k v r).stepRight = valueNode c' l' k v' r')
    (heq : (valueNode c' l' k v' r').entries = (valueNode c l k v r).entries)
    (hd : Deletable cr dr r') (ih : Removed cmp aKey cr dr r') :
    ∃ k'' v'' r'' cr', remove cmp aKey (valueNode c l k v r) =
        (valueNode c' l' k'' v'' r'').fixUp ∧
      Balanced cr' dr r'' ∧ (cr = .black → cr' = .black) ∧
      (valueNode c' l' k'' v'' r'').entries =
        erase cmp aKey (valueNode c l k v r).entries := by
  have hasc' : Ascending cmp (l'.entries ++ (k, v') :: r'.entries) := by
    rw [← entries, heq]
    exact hasc
  by_cases hkey : cmp aKey k = .eq
  · -- the smallest entry on the right takes the place of the removed one
    obtain ⟨⟨c₁, hb, hblack⟩, hmin⟩ := hd.removeMin_spec
    obtain ⟨e, es, hes⟩ := List.exists_cons_of_ne_nil hd.entries_ne_nil
    have hhead : r'.min = some e := by rw [min_eq_head?, hes, List.head?_cons]
    rw [hes, List.tail_cons] at hmin
    have hbelow : ∀ x ∈ r'.removeMin.entries, cmp aKey x.1 = .lt := by
      intro x hx
      rw [hmin] at hx
      rw [Std.TransCmp.congr_left hkey]
      refine hasc'.lt_of_mem_right (x := (k, v')) ?_
      rw [hes]
      exact List.mem_cons_of_mem _ hx
    obtain ⟨hb', hentries⟩ := hb.remove_of_lt_all hbelow
    refine ⟨e.1, e.2, _, c₁, remove_of_eq hk hs hkey hhead, hb', hblack, ?_⟩
    rw [← heq, entries, entries, erase_of_eq hasc' hkey, hentries, hmin, hes]
  · obtain ⟨⟨c₁, hb, hblack⟩, hentries⟩ := ih
    refine ⟨k, v', _, c₁, remove_of_ne hk hs hkey, hb, hblack, ?_⟩
    have hgt : cmp aKey k = .gt := by
      cases h : cmp aKey k with
      | lt => exact absurd h hk
      | eq => exact absurd h hkey
      | gt => rfl
    rw [← heq, entries, entries, erase_of_gt hasc' hgt, hentries]

/-- A tree that leans to the right, on the way to a key that is not below its root. -/
theorem Removed.of_rightRed (hasc : Ascending cmp (valueNode .black l k v r).entries)
    (hk : cmp aKey k ≠ .lt) (hl : Balanced .black d l) (hr : Balanced .red d r)
    (ih : Removed cmp aKey .red d r) :
    Removed cmp aKey .black (d + 1) (valueNode .black l k v r) := by
  have hstep : (valueNode .black l k v r).stepRight = valueNode .black l k v r := by
    simp [stepRight, hl.isRed_of_black, hr.isRed_eq]
  obtain ⟨k'', v'', r'', cr', hremove, hb, -, hentries⟩ :=
    remove_right hasc hk hstep rfl (.red hr) ih
  obtain ⟨c', hb', hblack⟩ := hl.fixUp_black (k := k'') (v := v'') hb
  refine ⟨⟨c', ?_, fun _ => hblack (.inl rfl)⟩, ?_⟩
  · rw [hremove]
    exact hb'
  · rw [hremove, entries_fixUp, hentries]

/-- What a removal on the left gives for the entries of the whole tree. -/
theorem entries_remove_left {c' : FLLRBColor} {l' r' : FLLRBNode κ ν} {k' : κ} {v' : ν}
    (hasc : Ascending cmp (valueNode c l k v r).entries) (hk : cmp aKey k = .lt)
    (heq : (valueNode c' l' k' v' r').entries = (valueNode c l k v r).entries)
    (hk' : k' = k ∨ (k', v') ∈ r.entries)
    (ih : (remove cmp aKey l').entries = erase cmp aKey l'.entries) :
    (valueNode c' (remove cmp aKey l') k' v' r').entries =
      erase cmp aKey (valueNode c l k v r).entries := by
  have hasc' : Ascending cmp (l'.entries ++ (k', v') :: r'.entries) := by
    rw [← entries, heq]
    exact hasc
  have hlt : cmp aKey k' = .lt := by
    rcases hk' with rfl | hk'
    · exact hk
    · rw [entries] at hasc
      exact Std.TransCmp.lt_trans hk (hasc.lt_of_mem_right hk')
  rw [← heq, entries, entries, erase_of_lt hasc' hlt, ih]

/-- A removal from a node with black children, of either color: the result is the repair of
a node with black children again, or of one of the other color with children of any. -/
theorem remove_of_black_children (hl : Balanced .black (d + 1) l)
    (hr : Balanced .black (d + 1) r) (hasc : Ascending cmp (valueNode c l k v r).entries)
    (ih : ∀ {t' : FLLRBNode κ ν} {c' : FLLRBColor} {d' : Nat},
      t'.count < (valueNode c l k v r).count → Deletable c' d' t' →
      Ascending cmp t'.entries → Removed cmp aKey c' d' t') :
    ∃ c' l' k' v' r', remove cmp aKey (valueNode c l k v r) =
        (valueNode c' l' k' v' r').fixUp ∧
      (valueNode c' l' k' v' r').entries =
        erase cmp aKey (valueNode c l k v r).entries ∧
      (c' = c ∧ Balanced .black (d + 1) l' ∧ Balanced .black (d + 1) r' ∨
        c' = c.flip ∧ ∃ cl cr, Balanced cl d l' ∧ Balanced cr d r') := by
  by_cases hk : cmp aKey k = .lt
  · obtain ⟨c', l', k', v', r', hstep, heq, hk', hcases⟩ := stepLeft_cases c k v hl hr
    have hsmaller := (count_lt_of_entries heq).1
    have hascl : Ascending cmp l'.entries := by
      rw [← heq, entries] at hasc
      exact hasc.left
    refine ⟨c', remove cmp aKey l', k', v', r', remove_of_lt hk hstep, ?_⟩
    rcases hcases with ⟨rfl, hl', hr'⟩ | ⟨rfl, hl', hr'⟩
    · obtain ⟨⟨c'', hb, hblack⟩, hentries⟩ := ih hsmaller hl' hascl
      obtain rfl := hblack rfl
      exact ⟨entries_remove_left hasc hk heq hk' hentries, .inl ⟨rfl, hb, hr'⟩⟩
    · obtain ⟨⟨c'', hb, -⟩, hentries⟩ := ih hsmaller (.red hl') hascl
      exact ⟨entries_remove_left hasc hk heq hk' hentries,
        .inr ⟨rfl, c'', .red, hb, hr'⟩⟩
  · rcases stepRight_cases c k v hl hr with ⟨hstep, hr'⟩ |
      ⟨l', k', v', rl, rr, hstep, heq, hmem, hl', hrl, hrr⟩ |
      ⟨l', r', hstep, hel, her, hl', hr'⟩
    · have hascr : Ascending cmp r.entries := by
        rw [entries] at hasc
        exact hasc.of_cons_right
      obtain ⟨k'', v'', r'', cr', hremove, hb, hblack, hentries⟩ :=
        remove_right hasc hk hstep rfl hr' (ih (count_lt_of_entries rfl).2 hr' hascr)
      obtain rfl := hblack rfl
      exact ⟨c, l, k'', v'', r'', hremove, hentries, .inl ⟨rfl, hl, hb⟩⟩
    · -- the key is not below the old root, which is now the root of the right child
      have hasc' : Ascending cmp
          (l'.entries ++ (k', v') :: (valueNode .black rl k v rr).entries) := by
        rw [← entries, heq]
        exact hasc
      have hgt : cmp aKey k' = .gt := by
        rw [entries] at hasc
        exact gt_of_lt_of_not_lt (hasc.lt_of_mem_left hmem) hk
      have hascr := hasc'.of_cons_right
      have hascrr : Ascending cmp rr.entries := by
        rw [entries] at hascr
        exact hascr.of_cons_right
      have hsmaller := (count_lt_of_entries heq).2
      have hsmaller' : rr.count < (valueNode c l k v r).count := by
        simp only [count] at hsmaller ⊢
        omega
      obtain ⟨⟨c'', hb, hblack⟩, hentries⟩ :=
        Removed.of_rightRed hascr hk hrl hrr (ih hsmaller' (.red hrr) hascrr)
      obtain rfl := hblack rfl
      refine ⟨c, l', k', v', _, remove_of_ne hk hstep (by simp [hgt]), ?_,
        .inl ⟨rfl, hl', hb⟩⟩
      rw [← heq, entries, hentries, entries.eq_def (valueNode c l' k' v' _),
        erase_of_gt hasc' hgt]
    · have heq : (valueNode c.flip l' k v r').entries = (valueNode c l k v r).entries := by
        rw [entries, entries, hel, her]
      have hascr : Ascending cmp r'.entries := by
        rw [entries] at hasc
        rw [her]
        exact hasc.of_cons_right
      obtain ⟨k'', v'', r'', cr', hremove, hb, -, hentries⟩ := remove_right hasc hk hstep heq
        (.red hr') (ih (count_lt_of_entries heq).2 (.red hr') hascr)
      exact ⟨c.flip, l', k'', v'', r'', hremove, hentries,
        .inr ⟨rfl, .red, cr', hl', hb⟩⟩

omit [Std.TransCmp cmp] in
/-- A single entry. -/
theorem remove_single (cmp : κ → κ → Ordering) (aKey : κ) (c : FLLRBColor) (k : κ) (v : ν) :
    (remove cmp aKey (valueNode c .emptyNode k v .emptyNode) = .emptyNode ∧
        cmp aKey k = .eq) ∨
      (remove cmp aKey (valueNode c .emptyNode k v .emptyNode) =
          valueNode c .emptyNode k v .emptyNode ∧ cmp aKey k ≠ .eq) := by
  have hleft : (valueNode c (.emptyNode : FLLRBNode κ ν) k v .emptyNode).stepLeft =
      valueNode c .emptyNode k v .emptyNode := by
    simp [stepLeft]
  have hright : (valueNode c (.emptyNode : FLLRBNode κ ν) k v .emptyNode).stepRight =
      valueNode c .emptyNode k v .emptyNode := by
    simp [stepRight]
  have hfix : (valueNode c (.emptyNode : FLLRBNode κ ν) k v .emptyNode).fixUp =
      valueNode c .emptyNode k v .emptyNode :=
    fixUp_of_not_red rfl (.inl rfl)
  cases h : cmp aKey k with
  | lt =>
      refine .inr ⟨?_, by decide⟩
      rw [remove_of_lt h hleft, remove_emptyNode, hfix]
  | eq => exact .inl ⟨remove_of_eq_of_empty (by simp [h]) hright h, rfl⟩
  | gt =>
      refine .inr ⟨?_, by decide⟩
      rw [remove_of_ne (by simp [h]) hright (by simp [h]), remove_emptyNode, hfix]

omit [Std.TransCmp cmp] in
/-- The removal from a tree of a single node. -/
theorem entries_remove_single (aKey : κ) (c : FLLRBColor) (k : κ) (v : ν) :
    (remove cmp aKey (valueNode c .emptyNode k v .emptyNode)).entries =
      erase cmp aKey (valueNode c .emptyNode k v .emptyNode).entries := by
  rcases remove_single cmp aKey c k v with ⟨hremove, hk⟩ | ⟨hremove, hk⟩
  · rw [hremove]
    simp [entries, erase, hk]
  · rw [hremove]
    simp [entries, erase, hk]

/-- A removal keeps the depth of a tree that it may go down to, and a black tree black. -/
theorem Deletable.removed (h : Deletable c d t) (hasc : Ascending cmp t.entries) (aKey : κ) :
    Removed cmp aKey c d t := by
  induction hn : t.count using Nat.strong_induction_on generalizing t c d with
  | _ n ih =>
      subst hn
      cases h with
      | leftRed hl hr =>
          rename_i d l r k v
          have hentries : (valueNode .black l k v r).entries = l.entries ++ (k, v) :: r.entries :=
            rfl
          by_cases hk : cmp aKey k = .lt
          · have hstep : (valueNode .black l k v r).stepLeft = valueNode .black l k v r := by
              simp [stepLeft, hl.isRed_eq]
            obtain ⟨⟨c', hb, -⟩, hel⟩ :=
              ih _ (count_lt_of_entries rfl).1 (.red hl) (hentries ▸ hasc).left rfl
            obtain ⟨c'', hb', hblack⟩ := hb.fixUp_black (k := k) (v := v) hr
            rw [Removed, remove_of_lt hk hstep, entries_fixUp]
            exact ⟨⟨c'', hb', fun _ => hblack (.inr rfl)⟩,
              entries_remove_left hasc hk rfl (.inl rfl) hel⟩
          · obtain ⟨ll, lk, lv, lr, rfl, hll, hlr⟩ := hl.of_red
            have hstep : (valueNode .black (valueNode .red ll lk lv lr) k v r).stepRight =
                valueNode .black ll lk lv (valueNode .red lr k v r) := by
              simp [stepRight, rotateRight]
            have heq : (valueNode .black ll lk lv (valueNode .red lr k v r)).entries =
                (valueNode .black (valueNode .red ll lk lv lr) k v r).entries := by
              simp [entries]
            have hasc' : Ascending cmp
                (ll.entries ++ (lk, lv) :: (valueNode .red lr k v r).entries) := by
              rw [← entries, heq]
              exact hasc
            have hlt : cmp lk k = .lt := hasc'.lt_of_mem_right (x := (lk, lv)) (e := (k, v))
              (by simp [entries])
            have hgt : cmp aKey lk = .gt := gt_of_lt_of_not_lt hlt hk
            obtain ⟨⟨c', hb, -⟩, her⟩ := ih _ (count_lt_of_entries heq).2 (.red (.red hlr hr))
              hasc'.of_cons_right rfl
            obtain ⟨c'', hb', hblack⟩ := hll.fixUp_black (k := lk) (v := lv) hb
            rw [Removed, remove_of_ne hk hstep (by simp [hgt]), entries_fixUp]
            refine ⟨⟨c'', hb', fun _ => hblack (.inl rfl)⟩, ?_⟩
            rw [← heq, entries, her, entries.eq_def (valueNode .black ll lk lv _),
              erase_of_gt hasc' hgt]
      | red h =>
          obtain ⟨l, k, v, r, rfl, hl, hr⟩ := h.of_red
          cases d with
          | zero =>
              obtain rfl := hl.eq_emptyNode
              obtain rfl := hr.eq_emptyNode
              refine ⟨?_, entries_remove_single aKey .red k v⟩
              rcases remove_single cmp aKey .red k v with ⟨hremove, -⟩ | ⟨hremove, -⟩
              · rw [hremove]
                exact ⟨.black, .emptyNode, fun _ => rfl⟩
              · rw [hremove]
                exact ⟨.red, h, fun h => by cases h⟩
          | succ d =>
              obtain ⟨c', l', k', v', r', hremove, hentries, hcases⟩ :=
                remove_of_black_children hl hr hasc
                  fun {t' c' d'} hlt hd ha => ih _ hlt hd ha rfl
              rw [Removed, hremove, entries_fixUp]
              refine ⟨?_, hentries⟩
              rcases hcases with ⟨rfl, hl', hr'⟩ | ⟨rfl, cl, cr, hl', hr'⟩
              · rw [fixUp_of_not_red hr'.isRed_of_black (.inl hl'.isRed_of_black)]
                exact ⟨.red, .red hl' hr', fun h => by cases h⟩
              · obtain ⟨c'', hb, -⟩ := hl'.fixUp_black (k := k') (v := v') hr'
                exact ⟨c'', hb, fun h => by cases h⟩

/-- **Removal.** A balanced tree in order stays so, and loses the entry. -/
theorem remove_spec (hb : Balanced .black d t) (hasc : Ascending cmp t.entries) (aKey : κ) :
    (∃ d', Balanced .black d' ((remove cmp aKey t).copyWithColor .black)) ∧
      ((remove cmp aKey t).copyWithColor .black).entries = erase cmp aKey t.entries := by
  rw [entries_copyWithColor]
  cases d with
  | zero =>
      obtain rfl := hb.eq_emptyNode
      rw [remove_emptyNode]
      exact ⟨⟨0, .emptyNode⟩, rfl⟩
  | succ d =>
      obtain ⟨cl, l, k, v, r, rfl, hl, hr⟩ := hb.of_black
      cases cl with
      | red =>
          obtain ⟨⟨c', hb', -⟩, hentries⟩ := (Deletable.leftRed hl hr).removed hasc aKey
          exact ⟨hb'.copyWithColor_black, hentries⟩
      | black =>
          cases d with
          | zero =>
              obtain rfl := hl.eq_emptyNode
              obtain rfl := hr.eq_emptyNode
              refine ⟨?_, entries_remove_single aKey .black k v⟩
              rcases remove_single cmp aKey .black k v with ⟨hremove, -⟩ | ⟨hremove, -⟩
              · rw [hremove]
                exact ⟨0, .emptyNode⟩
              · rw [hremove]
                exact ⟨1, hb⟩
          | succ d =>
              -- the root is black with black children, so that its repair may be red
              obtain ⟨c', l', k', v', r', hremove, hentries, hcases⟩ :=
                remove_of_black_children hl hr hasc
                  fun {t' c' d'} _ hd ha => hd.removed ha aKey
              rw [hremove, entries_fixUp]
              refine ⟨?_, hentries⟩
              rcases hcases with ⟨rfl, hl', hr'⟩ | ⟨rfl, cl, cr, hl', hr'⟩
              · obtain ⟨c'', hb', -⟩ := hl'.fixUp_black (k := k') (v := v') hr'
                exact hb'.copyWithColor_black
              · by_cases hblack : cl = .black ∨ cr = .black
                · exact ⟨_, (hl'.fixUp_red hr' hblack).copyWithColor_black⟩
                · have hcl : cl = .red := by
                    cases cl with
                    | red => rfl
                    | black => exact absurd (.inl rfl) hblack
                  have hcr : cr = .red := by
                    cases cr with
                    | red => rfl
                    | black => exact absurd (.inr rfl) hblack
                  subst hcl hcr
                  rw [show FLLRBColor.black.flip = .red from rfl,
                    fixUp_of_both_red hl'.isRed_eq hl'.left_not_red hr'.isRed_eq]
                  exact ⟨_, .black hl'.flipped_red hr'.flipped_red⟩

end FLLRBNode

end FirebaseLogin
