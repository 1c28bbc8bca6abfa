import Mathlib.Algebra.Ring.Int.Defs
import Mathlib.Data.List.Basic
import Mathlib.Tactic.Common

/-!
# Swift Strings

This module models the operations of Swift's `String` and Foundation's `NSString` that
a form uses: `count`, `==`, `components(separatedBy:)`, `joined(separator:)`, `Int(_:)`,
`capitalized` and the replacement of an `NSRange`. A string is its sequence of Unicode
scalars.

Two of the operations read the Unicode character database, whose version comes with the
operating system: `count` counts extended grapheme clusters, and `==` compares canonical
decompositions. Their tables are the parameter `UnicodeData`, which carries the two facts
of the Unicode standard that the proofs rely on.

## Main results

* `joined_componentsSeparatedBy`: splitting at a class of scalars and joining again
  deletes exactly that class.
* `UnicodeData.isEqual_filter_iff`: comparing a string with its ASCII filtering by `==`
  tests that the filter deletes nothing — canonical equivalence identifies different
  scalar sequences, but never a sequence with a proper ASCII subsequence of it.
* `mem_replacingCharacters`: every scalar of a replaced text comes from the text or from
  the replacement.
-/

namespace FirebaseLogin

/-! ### The Unicode tables -/

/-- The tables of the Unicode character database read by `count` and `==`. -/
structure UnicodeData where
  /-- Whether there is an extended grapheme cluster boundary between two texts. -/
  graphemeBreak : List Char → List Char → Bool
  /-- The full canonical decomposition of a scalar. -/
  decomposition : Char → List Char
  /-- The canonical combining class of a scalar, `0` for a starter. -/
  combiningClass : Char → Nat
  decomposition_ne_nil : ∀ c, decomposition c ≠ []
  decomposition_ascii : ∀ c, c.val < 128 → decomposition c = [c]

namespace UnicodeData

/-- The tables restricted to ASCII: the only cluster of two scalars is a line break. -/
def ascii : UnicodeData where
  graphemeBreak before after := !(before.getLast? == some '\r' && after.head? == some '\n')
  decomposition c := [c]
  combiningClass _ := 0
  decomposition_ne_nil c := by simp
  decomposition_ascii c _ := rfl

variable (U : UnicodeData)

/-- The number of clusters starting in the second text, given the scalars before it. The
first scalar of a string always starts a cluster. -/
def countFrom : List Char → List Char → Nat
  | _, [] => 0
  | before, c :: cs =>
      (if before = [] ∨ U.graphemeBreak before (c :: cs) then 1 else 0)
        + countFrom (before ++ [c]) cs

/-- `String.count`: the number of extended grapheme clusters. -/
def count (s : String) : Nat :=
  U.countFrom [] s.toList

/-- The empty string has no cluster. -/
@[simp] theorem count_empty : U.count "" = 0 := by
  simp [count, countFrom]

/-- Insert a scalar before an ordered text: it moves behind the combining marks of a
strictly smaller class that follow it. -/
def insertMark (c : Char) : List Char → List Char
  | [] => [c]
  | d :: ds =>
      if 0 < U.combiningClass d ∧ U.combiningClass d < U.combiningClass c then
        d :: insertMark c ds
      else c :: d :: ds

/-- The normalization form that `==` compares: the canonical decompositions of the
scalars, with every run of combining marks in canonical order. -/
def nfd (s : List Char) : List Char :=
  (s.flatMap U.decomposition).foldr U.insertMark []

/-- `==` on strings: canonical equivalence. -/
def isEqual (a b : String) : Bool :=
  U.nfd a.toList == U.nfd b.toList

/-- Inserting a mark adds one scalar. -/
theorem length_insertMark (c : Char) (ds : List Char) :
    (U.insertMark c ds).length = ds.length + 1 := by
  induction ds with
  | nil => rfl
  | cons d ds ih =>
      simp only [insertMark]
      split <;> simp [ih]

/-- Reordering the marks keeps the number of scalars. -/
theorem length_nfd (s : List Char) :
    (U.nfd s).length = (s.flatMap U.decomposition).length := by
  have h : ∀ l : List Char, (l.foldr U.insertMark []).length = l.length := by
    intro l
    induction l with
    | nil => rfl
    | cons c cs ih => simp [length_insertMark, ih]
  exact h _

/-- A decomposition never drops a scalar. -/
theorem length_le_length_nfd (s : List Char) : s.length ≤ (U.nfd s).length := by
  rw [length_nfd]
  induction s with
  | nil => simp
  | cons c cs ih =>
      have hc := List.length_pos_iff.mpr (U.decomposition_ne_nil c)
      simp only [List.flatMap_cons, List.length_append, List.length_cons]
      omega

/-- An ASCII text decomposes to itself, so its normal form is as long as the text. -/
theorem length_nfd_of_ascii {s : List Char} (hs : ∀ c ∈ s, c.val < 128) :
    (U.nfd s).length = s.length := by
  rw [length_nfd]
  induction s with
  | nil => simp
  | cons c cs ih =>
      have hcs := ih fun d hd => hs d (List.mem_cons_of_mem _ hd)
      simp only [List.flatMap_cons, List.length_append, List.length_cons,
        U.decomposition_ascii c (hs c List.mem_cons_self), hcs]
      simp [Nat.add_comm]

/-- **The filter test.** For a class `p` of ASCII scalars, a string equals its own
filtering by `p` exactly when all its scalars are in `p`. -/
theorem isEqual_filter_iff {p : Char → Bool} (hp : ∀ c, p c = true → c.val < 128)
    (s : String) :
    U.isEqual s (String.ofList (s.toList.filter p)) = true ↔
      ∀ c ∈ s.toList, p c = true := by
  simp only [isEqual, String.toList_ofList, beq_iff_eq]
  constructor
  · intro h
    -- compare the lengths of the two normal forms: the left one lost no scalar
    have hlen : s.toList.length ≤ (s.toList.filter p).length := by
      calc s.toList.length ≤ (U.nfd s.toList).length := U.length_le_length_nfd _
        _ = (U.nfd (s.toList.filter p)).length := by rw [h]
        _ = (s.toList.filter p).length :=
            U.length_nfd_of_ascii fun c hc => hp c (List.mem_filter.mp hc).2
    exact List.filter_eq_self.mp (List.filter_sublist.eq_of_length_le hlen)
  · intro h
    rw [List.filter_eq_self.mpr h]

end UnicodeData

/-! ### Splitting and joining -/

/-- `components(separatedBy:)` with a class of separator scalars. -/
def componentsSeparatedBy (separator : Char → Bool) (s : String) : List String :=
  (s.toList.splitOnP separator).map String.ofList

/-- `joined(separator: "")`. -/
def joined (pieces : List String) : String :=
  String.ofList (pieces.flatMap String.toList)

/-- The parts of a list that is split lack the elements at which it was split. -/
theorem flatten_splitOnP {α : Type*} (p : α → Bool) (l : List α) :
    (l.splitOnP p).flatten = l.filter fun c => !p c := by
  induction l with
  | nil => simp
  | cons c cs ih =>
      rw [List.splitOnP_cons_eq_if_modifyHead]
      cases h : p c with
      | true => simp [h, ih]
      | false =>
          obtain ⟨x, xs, hx⟩ := List.exists_cons_of_ne_nil (List.splitOnP_ne_nil p cs)
          simp only [hx, List.flatten_cons] at ih
          simp [h, hx, ih]

/-- Splitting at the separators and joining the pieces deletes the separators. -/
theorem joined_componentsSeparatedBy (separator : Char → Bool) (s : String) :
    joined (componentsSeparatedBy separator s)
      = String.ofList (s.toList.filter fun c => !separator c) := by
  rw [← flatten_splitOnP]
  simp [joined, componentsSeparatedBy, List.flatMap_map]

/-! ### Decimal integers -/

/-- The value of a decimal digit. -/
def digitValue? (c : Char) : Option Nat :=
  if '0' ≤ c ∧ c ≤ '9' then some (c.toNat - '0'.toNat) else none

/-- Read a sequence of decimal digits after the value read so far. -/
def readDigits : Nat → List Char → Option Nat
  | n, [] => some n
  | n, c :: cs => (digitValue? c).bind fun d => readDigits (10 * n + d) cs

/-- Read a nonempty sequence of decimal digits. -/
def magnitude? : List Char → Option Nat
  | [] => none
  | c :: cs => readDigits 0 (c :: cs)

/-- The values of Swift's `Int` on a 64-bit platform. -/
def fitsInt (n : Int) : Bool :=
  -2 ^ 63 ≤ n && n < 2 ^ 63

/-- `Int(_:)` on a string: an optional sign and at least one decimal digit, `none` on any
other text and on a value that does not fit 64 bits. -/
def intOfString? (s : String) : Option Int :=
  let signed : Option Int :=
    match s.toList with
    | '-' :: ds => (magnitude? ds).map fun m => -(m : Int)
    | '+' :: ds => (magnitude? ds).map fun m => (m : Int)
    | ds => (magnitude? ds).map fun m => (m : Int)
  signed.filter fitsInt

example : ["18", "+18", "-3", "007", "", "+", " 18", "1.5", "9223372036854775808"].map
    intOfString? = [some 18, some 18, some (-3), some 7, none, none, none, none, none] := by
  decide

/-! ### Capitalization -/

/-- The delimiters of words for `capitalized`: spaces, tabs and line terminators. -/
def isWordDelimiter (c : Char) : Bool :=
  c == ' ' || c == '\t' || c == '\n' || c == '\r'

/-- Capitalize the rest of a text, given whether a word starts here. -/
def capitalizeFrom : Bool → List Char → List Char
  | _, [] => []
  | wordStart, c :: cs =>
      if isWordDelimiter c then c :: capitalizeFrom true cs
      else (if wordStart then c.toUpper else c.toLower) :: capitalizeFrom false cs

/-- `capitalized`: the first letter of every word in upper case and the others in lower
case, for ASCII letters. -/
def capitalized (s : String) : String :=
  String.ofList (capitalizeFrom true s.toList)

/-! ### Ranges of a text field -/

/-- An `NSRange`, counted in UTF-16 code units. -/
structure NSRange where
  location : Nat
  length : Nat
deriving Repr, DecidableEq

/-- The number of UTF-16 code units of a scalar. -/
def utf16Width (c : Char) : Nat :=
  if c.toNat < 0x10000 then 1 else 2

/-- Split a text after a number of UTF-16 code units. -/
def splitAtUTF16 : Nat → List Char → List Char × List Char
  | _, [] => ([], [])
  | n, c :: cs =>
      if n = 0 then ([], c :: cs)
      else
        let rest := splitAtUTF16 (n - utf16Width c) cs
        (c :: rest.1, rest.2)

/-- The text after a proposed edit is applied: the characters in the range are replaced
by the string. -/
def replacingCharacters (text : String) (range : NSRange) (string : String) : String :=
  let before := (splitAtUTF16 range.location text.toList).1
  let after := (splitAtUTF16 (range.location + range.length) text.toList).2
  String.ofList (before ++ string.toList ++ after)

/-- A scalar of one of the two parts is one of the text. -/
theorem mem_splitAtUTF16 {n : Nat} {cs : List Char} {c : Char}
    (h : c ∈ (splitAtUTF16 n cs).1 ∨ c ∈ (splitAtUTF16 n cs).2) : c ∈ cs := by
  induction cs generalizing n with
  | nil => simp [splitAtUTF16] at h
  | cons d ds ih =>
      by_cases hn : n = 0
      · simpa [splitAtUTF16, hn] using h
      · simp only [splitAtUTF16, if_neg hn, List.mem_cons] at h ⊢
        rcases h with (rfl | h) | h
        · exact Or.inl rfl
        · exact Or.inr (ih (Or.inl h))
        · exact Or.inr (ih (Or.inr h))

/-- Every scalar of a replaced text comes from the text or from the replacement. -/
theorem mem_replacingCharacters {text string : String} {range : NSRange} {c : Char}
    (h : c ∈ (replacingCharacters text range string).toList) :
    c ∈ text.toList ∨ c ∈ string.toList := by
  simp only [replacingCharacters, String.toList_ofList, List.mem_append] at h
  rcases h with (h | h) | h
  · exact Or.inl (mem_splitAtUTF16 (Or.inl h))
  · exact Or.inr h
  · exact Or.inl (mem_splitAtUTF16 (Or.inr h))

end FirebaseLogin
