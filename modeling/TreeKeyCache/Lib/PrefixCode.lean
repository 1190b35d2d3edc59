import Mathlib.Data.List.Basic

/-! # Prefix codes

A prefix code writes a value as a word that can be read back off the front of any
longer word.  Codes of numbers and words over an alphabet, and the combinators for
pairs, options and retracts. -/
set_option autoImplicit false
namespace PrefixCode

variable {S A B : Type}

/-- `decode` reads one value and returns the rest of the word. -/
structure Code (S A : Type) where
  encode : A → List S
  decode : List S → Option (A × List S)
  decode_encode : ∀ a rest, decode (encode a ++ rest) = some (a, rest)

namespace Code

def pair (first : Code S A) (second : Code S B) : Code S (A × B) where
  encode ab := first.encode ab.1 ++ second.encode ab.2
  decode word := do
    let (a, rest) ← first.decode word
    let (b, rest) ← second.decode rest
    pure ((a, b), rest)
  decode_encode ab rest := by
    simp [List.append_assoc, first.decode_encode, second.decode_encode]

def retract (code : Code S B) (into : A → B) (back : B → A) (law : ∀ a, back (into a) = a) :
    Code S A where
  encode a := code.encode (into a)
  decode word := (code.decode word).map fun found => (back found.1, found.2)
  decode_encode a rest := by simp [code.decode_encode, law]

section
variable [DecidableEq S]

/-- `no` for an absent value, `yes` in front of a present one. -/
def option (no yes : S) (distinct : no ≠ yes) (code : Code S A) : Code S (Option A) where
  encode
    | none => [no]
    | some a => yes :: code.encode a
  decode
    | [] => none
    | s :: rest =>
        if s = no then some (none, rest)
        else if s = yes then (code.decode rest).map fun found => (some found.1, found.2)
        else none
  decode_encode a rest := by
    cases a with
    | none => simp
    | some a => simp [distinct.symm, code.decode_encode]

def readOnes (one stop : S) : List S → Option (Nat × List S)
  | [] => none
  | s :: rest =>
      if s = stop then some (0, rest)
      else if s = one then (readOnes one stop rest).map fun found => (found.1 + 1, found.2)
      else none

theorem readOnes_replicate (one stop : S) (distinct : one ≠ stop) (rest : List S) : ∀ n : Nat,
    readOnes one stop (List.replicate n one ++ stop :: rest) = some (n, rest) := by
  intro n
  induction n with
  | zero => simp [readOnes]
  | succ n ih => simp [List.replicate_succ, readOnes, distinct, ih]

def nat (one stop : S) (distinct : one ≠ stop) : Code S Nat where
  encode n := List.replicate n one ++ [stop]
  decode := readOnes one stop
  decode_encode n rest := by
    rw [List.append_assoc]
    exact readOnes_replicate one stop distinct rest n

def readLetters (mark stop : S) : List S → Option (List S × List S)
  | [] => none
  | [s] => if s = stop then some ([], []) else none
  | s :: letter :: rest =>
      if s = stop then some ([], letter :: rest)
      else if s = mark then
        (readLetters mark stop rest).map fun found => (letter :: found.1, found.2)
      else none

theorem readLetters_marked (mark stop : S) (distinct : mark ≠ stop) (rest : List S) :
    ∀ word : List S,
      readLetters mark stop (word.flatMap (fun letter => [mark, letter]) ++ stop :: rest) =
        some (word, rest) := by
  intro word
  induction word with
  | nil => cases rest <;> simp [readLetters]
  | cons letter word ih => simp [readLetters, distinct, ih]

/-- A word over the alphabet itself: each letter is marked, and `stop` ends it. -/
def word (mark stop : S) (distinct : mark ≠ stop) : Code S (List S) where
  encode w := w.flatMap (fun letter => [mark, letter]) ++ [stop]
  decode := readLetters mark stop
  decode_encode w rest := by
    rw [List.append_assoc]
    exact readLetters_marked mark stop distinct rest w

end

end Code

end PrefixCode
