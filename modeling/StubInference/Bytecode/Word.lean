import StubInference.Power

/-!
# Machine words

Counts of parameters and operands are words of 64 bits. Arithmetic on them is checked, and so are the
ranges that are cut out of lists: what outgrows a word, runs backwards or ends behind the last item is
no fault of a step but a panic, which ends the whole program.

## Main definitions

* `Panic`, `Panic.message` — why the program ends, and the text it ends with
* `Panic.add`, `Panic.multiply` — sums and products of words
* `Panic.slice` — the items of a range
-/

namespace StubInference

/-- Why the program ends: a sum or a product is no word, or a range is none of the list. -/
inductive Panic where
  | addOverflow
  | multiplyOverflow
  | rangeOrder (start stop : Nat)
  | rangeEnd (stop length : Nat)
  deriving DecidableEq

namespace Panic

/-- The text that the program ends with. -/
def message : Panic → String
  | .addOverflow => "attempt to add with overflow"
  | .multiplyOverflow => "attempt to multiply with overflow"
  | .rangeOrder start stop => s!"slice index starts at {start} but ends at {stop}"
  | .rangeEnd stop length => s!"range end index {stop} out of range for slice of length {length}"

/-- The sum of two words. -/
def add (a b : Nat) : Except Panic Nat :=
  if a + b < twoTo 64 then .ok (a + b) else .error .addOverflow

/-- The product of two words. -/
def multiply (a b : Nat) : Except Panic Nat :=
  if a * b < twoTo 64 then .ok (a * b) else .error .multiplyOverflow

theorem multiply_eq_ok {a b c : Nat} : multiply a b = .ok c ↔ a * b < twoTo 64 ∧ c = a * b := by
  grind [multiply]

/-- The items from one position up to another one. -/
def slice {α : Type} (items : List α) (start stop : Nat) : Except Panic (List α) :=
  if stop < start then .error (.rangeOrder start stop)
  else if items.length < stop then .error (.rangeEnd stop items.length)
  else .ok ((items.take stop).drop start)

end Panic

end StubInference
