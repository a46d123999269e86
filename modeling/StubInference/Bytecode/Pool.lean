import StubInference.Fault
import StubInference.Value.Literal

/-!
# Constant pools

An instruction refers to a constant by its position in the pool of its code object.

## Main definitions

* `Code.literalAt` — the literal at a position of the pool
-/

namespace StubInference

/-- The literal at a position of the pool of a code object that stands at the given place. -/
def Code.literalAt (code : Code) (site : CodeSite) (index : Nat) : Except Fault Literal :=
  match code.consts[index]? with
  | some value => .ok (.ofConst (site.child index) value)
  | none => .error (.unhandled (.constantIndex index code.qualifiedName))

end StubInference
