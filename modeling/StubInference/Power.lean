/-!
# Powers of two and ten

Counts and doubles are bounded by powers of two, and decimals are digits times a power of ten.

## Main definitions

* `twoTo`, `tenTo` — the powers
-/

namespace StubInference

/-- The power of two with this exponent. -/
def twoTo (exponent : Nat) : Nat := Nat.pow 2 exponent

/-- The power of ten with this exponent. -/
def tenTo (exponent : Nat) : Nat := Nat.pow 10 exponent

end StubInference
