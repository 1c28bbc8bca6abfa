import Mathlib.Tactic.Common

/-!
# The Order of Keys

`compareKey` of `FUtilities.m`, by which the children of a node are sorted. A key that spells a
32-bit integer comes before all others and is compared by its value, and then by its length; the
others are compared by their UTF-16 code units. The names `minName` and `maxName` are compared
by identity, whatever their text.

## Main results

* `compareKey_eq_compareLex`: the order is a lexicographic one.
* `compareKey_eq_iff`: **which keys compare as the same**: besides a key with itself, two
  spellings of zero of one length, as `-0` and `00`.
* `compareKey_order`: a total preorder between the two names.
-/

namespace FirebaseLogin

/-- The UTF-16 code units of a character. -/
def unicharsOfChar (c : Char) : List UInt16 :=
  if c.toNat < 0x10000 then [UInt16.ofNat c.toNat]
  else [UInt16.ofNat (0xD800 + (c.toNat - 0x10000) / 0x400),
    UInt16.ofNat (0xDC00 + (c.toNat - 0x10000) % 0x400)]

/-- A string as the client sees it. -/
def unichars (s : String) : List UInt16 := s.toList.flatMap unicharsOfChar

/-- A key of a node, or one of the two names that bound them. -/
inductive NodeKey where
  | minName
  | maxName
  | text (str : List UInt16)
deriving DecidableEq

/-- `int32min`. -/
def int32min : Int := -2147483648

/-- `int32max`. -/
def int32max : Int := 2147483647

/-- The loop over the digits. -/
def parseDigits (value : Nat) : List UInt16 → Option Nat
  | [] => some value
  | c :: cs =>
      if c < 48 ∨ c > 57 then none else parseDigits (value * 10 + (c.toNat - 48)) cs

/-- `tryParseStringToInt`. At eleven code units the value cannot overflow. -/
def tryParseStringToInt (str : List UInt16) : Option Int :=
  if str.length > 11 ∨ str.length = 0 then none
  else
    let negative := str.head? = some 45
    if negative ∧ str.length = 1 then none
    else
      (parseDigits 0 (if negative then str.tail else str)).bind fun value =>
        let value : Int := if negative then -value else value
        if value < int32min ∨ value > int32max then none else some value

/-- The comparison of two texts. -/
def compareText (a b : List UInt16) : Ordering :=
  match tryParseStringToInt a, tryParseStringToInt b with
  | some aAsInt, some bAsInt =>
      if aAsInt > bAsInt then .gt
      else if aAsInt < bAsInt then .lt
      else if a.length > b.length then .gt
      else if a.length < b.length then .lt
      else .eq
  | some _, none => .lt
  | none, some _ => .gt
  | none, none => compare a b

/-- `compareKey:toKey:`. -/
def compareKey (a b : NodeKey) : Ordering :=
  if a = b then .eq
  else if a = .minName ∨ b = .maxName then .lt
  else if b = .minName ∨ a = .maxName then .gt
  else
    match a, b with
    | .text a, .text b => compareText a b
    | _, _ => .eq

/-! ### The order as a lexicographic one -/

namespace NodeKey

/-- The names bound the keys, and integers come before other texts. -/
def kind : NodeKey → Nat
  | minName => 0
  | text str => if (tryParseStringToInt str).isSome then 1 else 2
  | maxName => 3

/-- The integer a key spells, `0` for the other keys. -/
def intValue : NodeKey → Int
  | text str => (tryParseStringToInt str).getD 0
  | _ => 0

/-- The length of a key that spells an integer, `0` for the other keys. -/
def intLength : NodeKey → Nat
  | text str => if (tryParseStringToInt str).isSome then str.length else 0
  | _ => 0

/-- The code units of a key that spells no integer. -/
def units : NodeKey → List UInt16
  | text str => if (tryParseStringToInt str).isSome then [] else str
  | _ => []

end NodeKey

open NodeKey

/-- The least name comes before every text. -/
theorem compare_kind_text_minName (a : List UInt16) :
    compare (kind .minName) (kind (.text a)) = .lt ∧
      compare (kind (.text a)) (kind .minName) = .gt := by
  simp only [kind]
  split
  · exact ⟨rfl, rfl⟩
  · exact ⟨rfl, rfl⟩

/-- The greatest name comes after every text. -/
theorem compare_kind_text_maxName (a : List UInt16) :
    compare (kind .maxName) (kind (.text a)) = .gt ∧
      compare (kind (.text a)) (kind .maxName) = .lt := by
  simp only [kind]
  split
  · exact ⟨rfl, rfl⟩
  · exact ⟨rfl, rfl⟩

/-- **The order is lexicographic** in what kind of key it is, its value, its length and its code
units. -/
theorem compareKey_eq_compareLex : compareKey = compareLex (compareOn kind)
    (compareLex (compareOn intValue) (compareLex (compareOn intLength) (compareOn units))) := by
  funext a b
  cases a with
  | minName =>
      cases b with
      | minName => simp [compareKey, compareLex, compareOn]
      | maxName => rfl
      | text b => simp [compareKey, compareLex, compareOn, compare_kind_text_minName]
  | maxName =>
      cases b with
      | minName => rfl
      | maxName => simp [compareKey, compareLex, compareOn]
      | text b => simp [compareKey, compareLex, compareOn, compare_kind_text_maxName]
  | text a =>
      cases b with
      | minName => simp [compareKey, compareLex, compareOn, compare_kind_text_minName]
      | maxName => simp [compareKey, compareLex, compareOn, compare_kind_text_maxName]
      | text b =>
          by_cases hab : a = b
          · subst hab
            simp [compareKey, compareLex, compareOn]
          rw [compareKey, if_neg (by simpa using hab), if_neg (by simp), if_neg (by simp)]
          simp only [compareText, compareLex, compareOn, kind, intValue, intLength, units]
          cases ha : tryParseStringToInt a with
          | none =>
              cases hb : tryParseStringToInt b with
              | none => simp
              | some bAsInt => rfl
          | some aAsInt =>
              cases hb : tryParseStringToInt b with
              | none => rfl
              | some bAsInt =>
                  simp only [Option.isSome_some, if_true, Option.getD_some]
                  have hone : compare 1 1 = Ordering.eq := rfl
                  rw [hone, Ordering.eq_then]
                  rcases Int.lt_trichotomy aAsInt bAsInt with hlt | rfl | hgt
                  · rw [Int.compare_eq_lt.mpr hlt, if_neg (by omega), if_pos hlt, Ordering.lt_then]
                  · rw [Int.compare_eq_eq.mpr rfl, Ordering.eq_then, if_neg (by omega),
                      if_neg (by omega)]
                    rcases Nat.lt_trichotomy a.length b.length with hlt | heq | hgt
                    · rw [Nat.compare_eq_lt.mpr hlt, if_neg (by omega), if_pos hlt,
                        Ordering.lt_then]
                    · rw [Nat.compare_eq_eq.mpr heq, if_neg (by omega), if_neg (by omega),
                        Ordering.eq_then]
                      rfl
                    · rw [Nat.compare_eq_gt.mpr hgt, if_pos hgt, Ordering.gt_then]
                  · rw [Int.compare_eq_gt.mpr hgt, if_pos hgt, Ordering.gt_then]

/-- The order of keys is oriented and transitive, being lexicographic. -/
instance : Std.TransCmp compareKey := by
  rw [compareKey_eq_compareLex]
  infer_instance

/-! ### Keys that compare as the same -/

/-- Texts of one length with the same digits are the same. -/
theorem parseDigits_injective {cs cs' : List UInt16} {value value' n : Nat}
    (h : parseDigits value cs = some n) (h' : parseDigits value' cs' = some n)
    (hlength : cs.length = cs'.length) : value = value' ∧ cs = cs' := by
  induction cs generalizing value value' cs' with
  | nil =>
      obtain rfl := List.length_eq_zero_iff.mp hlength.symm
      exact ⟨Option.some.inj (h.trans h'.symm), rfl⟩
  | cons c cs ih =>
      cases cs' with
      | nil => cases hlength
      | cons c' cs' =>
          rw [parseDigits] at h h'
          split at h
          · cases h
          rename_i hc
          split at h'
          · cases h'
          rename_i hc'
          obtain ⟨hvalue, rfl⟩ := ih h h' (Nat.succ.inj hlength)
          simp only [not_or, UInt16.lt_iff_toNat_lt, gt_iff_lt, UInt16.reduceToNat]
            at hc hc'
          obtain ⟨rfl, hdigit⟩ : value = value' ∧ c.toNat = c'.toNat := by omega
          exact ⟨rfl, by rw [UInt16.toNat_inj.mp hdigit]⟩

/-- What a text that spells an integer is made of. -/
theorem eq_of_tryParseStringToInt {str : List UInt16} {n : Int}
    (h : tryParseStringToInt str = some n) :
    (∃ value digits, str = 45 :: digits ∧ parseDigits 0 digits = some value ∧ n = -value) ∨
      ∃ value, parseDigits 0 str = some value ∧ n = value := by
  simp only [tryParseStringToInt] at h
  split at h
  · cases h
  split at h
  · cases h
  obtain ⟨value, hvalue, hn⟩ := Option.bind_eq_some_iff.mp h
  clear h
  by_cases hnegative : str.head? = some 45
  · rw [if_pos hnegative] at hvalue
    simp only [if_pos hnegative] at hn
    split at hn
    · cases hn
    · obtain ⟨digits, rfl⟩ := List.head?_eq_some_iff.mp hnegative
      exact .inl ⟨value, digits, rfl, hvalue, (Option.some.inj hn).symm⟩
  · rw [if_neg hnegative] at hvalue
    simp only [if_neg hnegative] at hn
    split at hn
    · cases hn
    · exact .inr ⟨value, hvalue, (Option.some.inj hn).symm⟩

/-- Two spellings of one integer of the same length are the same, but for zero. -/
theorem eq_of_tryParseStringToInt_eq {a b : List UInt16} {n : Int}
    (ha : tryParseStringToInt a = some n) (hb : tryParseStringToInt b = some n)
    (hlength : a.length = b.length) (hn : n ≠ 0) : a = b := by
  rcases eq_of_tryParseStringToInt ha with ⟨v, ds, rfl, hv, rfl⟩ | ⟨v, hv, rfl⟩
  · rcases eq_of_tryParseStringToInt hb with ⟨v', ds', rfl, hv', heq⟩ | ⟨v', hv', heq⟩
    · obtain rfl : v = v' := by omega
      rw [(parseDigits_injective hv hv' (Nat.succ.inj hlength)).2]
    · omega
  · rcases eq_of_tryParseStringToInt hb with ⟨v', ds', rfl, hv', heq⟩ | ⟨v', hv', heq⟩
    · omega
    · obtain rfl : v = v' := by omega
      exact (parseDigits_injective hv hv' hlength).2

/-- **Which keys compare as the same.** -/
theorem compareKey_eq_iff (a b : NodeKey) :
    compareKey a b = .eq ↔ a = b ∨ ∃ s t, a = .text s ∧ b = .text t ∧
      tryParseStringToInt s = some 0 ∧ tryParseStringToInt t = some 0 ∧ s.length = t.length := by
  constructor
  · intro h
    cases a with
    | minName =>
        cases b with
        | minName => exact .inl rfl
        | maxName | text b => simp [compareKey] at h
    | maxName =>
        cases b with
        | maxName => exact .inl rfl
        | minName | text b => simp [compareKey] at h
    | text a =>
        cases b with
        | minName | maxName => simp [compareKey] at h
        | text b =>
            by_cases hab : a = b
            · exact .inl (by rw [hab])
            right
            rw [compareKey, if_neg (by simpa using hab), if_neg (by simp), if_neg (by simp)] at h
            simp only [compareText] at h
            cases ha : tryParseStringToInt a with
            | none =>
                cases hb : tryParseStringToInt b with
                | none =>
                    simp only [ha, hb] at h
                    exact absurd (Std.LawfulEqOrd.eq_of_compare h) hab
                | some n => simp [ha, hb] at h
            | some m =>
                cases hb : tryParseStringToInt b with
                | none => simp [ha, hb] at h
                | some n =>
                    simp only [ha, hb] at h
                    obtain ⟨rfl, hlength⟩ : m = n ∧ a.length = b.length := by
                      split_ifs at h
                      omega
                    have hzero : m = 0 := by
                      by_contra hm
                      exact hab (eq_of_tryParseStringToInt_eq ha hb hlength hm)
                    subst hzero
                    exact ⟨a, b, rfl, rfl, ha, hb, hlength⟩
  · rintro (rfl | ⟨s, t, rfl, rfl, hs, ht, hlength⟩)
    · exact Std.ReflCmp.compare_self
    · by_cases hst : s = t
      · simp [compareKey, hst]
      · simp [compareKey, hst, compareText, hs, ht, hlength]

/-- **The order of keys** is a total preorder between the two names, in which only a key with
itself and two spellings of zero of one length compare as the same. -/
theorem compareKey_order (a b c : NodeKey) :
    compareKey b a = (compareKey a b).swap ∧
      ((compareKey a b).isLE → (compareKey b c).isLE → (compareKey a c).isLE) ∧
      (compareKey .minName a).isLE ∧ (compareKey a .maxName).isLE ∧
      (compareKey a b = .eq ↔ a = b ∨ ∃ s t, a = .text s ∧ b = .text t ∧
        tryParseStringToInt s = some 0 ∧ tryParseStringToInt t = some 0 ∧
        s.length = t.length) := by
  refine ⟨Std.OrientedCmp.eq_swap, Std.TransCmp.isLE_trans, ?_, ?_, compareKey_eq_iff a b⟩
  · cases a with
    | minName | maxName | text a => rfl
  · cases a with
    | minName | maxName | text a => rfl

/-- The keys `-0` and `00` compare as the same. -/
example : compareKey (.text (unichars "-0")) (.text (unichars "00")) = .eq := by decide

end FirebaseLogin
