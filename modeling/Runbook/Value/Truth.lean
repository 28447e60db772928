import Runbook.Value.Basic

/-!
# `Value.Truth` — truth and equality of values

Conditions compare step outputs by value: numbers are compared exactly across integers, doubles and
booleans, lists item by item, and objects without regard to the order of their keys.

## Contents
- **Truth.** `truthy`: null, false, zero and everything empty are false.
- **Equality.** `same`, by recursion on the first value.
-/

namespace Runbook.Value

/-- Null, false, zero, and the empty text, list and object are false; all else is true. -/
def truthy : Value → Bool
  | .null => false
  | .bool b => b
  | .int n => n ≠ 0
  | .real x => x != 0.0
  | .text s => s ≠ ""
  | .list items => !items.isEmpty
  | .object fields => !fields.isEmpty
  | .function _ | .schema _ | .parsed _ _ => true

/-- The integer a boolean or an integer stands for. -/
def integer? : Value → Option Int
  | .bool b => some (if b then 1 else 0)
  | .int n => some n
  | _ => none

/-- Equality of scalars: numbers exactly, texts and functions by identity. -/
def sameScalar (a b : Value) : Bool :=
  match a, b with
  | .null, .null => true
  | .text s, .text t => s = t
  | .real x, .real y => x == y
  | .function f, .function g => f = g
  | .schema s, .schema t => s = t
  | .real x, b =>
    match b.integer? with
    | some n => Number.equalsInt x n
    | none => false
  | a, .real y =>
    match a.integer? with
    | some n => Number.equalsInt y n
    | none => false
  | a, b =>
    match a.integer?, b.integer? with
    | some m, some n => m = n
    | _, _ => false

mutual
/-- Equality of values. -/
def same : Value → Value → Bool
  | .list xs, .list ys => sameItems xs ys
  | .list _, _ => false
  | .object fs, .object gs => fs.length = gs.length && sameFields fs gs
  | .object _, _ => false
  | .parsed s fs, .parsed t gs => s = t && fs.length = gs.length && sameFields fs gs
  | .parsed _ _, _ => false
  | a, b => sameScalar a b

/-- Equality of lists, item by item. -/
def sameItems : List Value → List Value → Bool
  | [], [] => true
  | x :: xs, y :: ys => x.same y && sameItems xs ys
  | _, _ => false

/-- Every field of the first has an equal one of the same key in the second. -/
def sameFields : List (String × Value) → Keyed Value → Bool
  | [], _ => true
  | (k, v) :: rest, gs =>
    (match gs.get? k with
      | some w => v.same w
      | none => false) && sameFields rest gs
end

end Runbook.Value
