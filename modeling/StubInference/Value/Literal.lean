import StubInference.Bytecode.Code
import StubInference.Decimal.Layout

/-!
# Literals

A literal is a constant as the analysis sees it. A code object among the literals is known by the
place where it stands, so that two code objects are the same only if they are the same occurrence.

## Main definitions

* `CodeSite` — where a code object stands
* `Literal` — a constant known to the analysis
* `Literal.ofConst` — the literal that a constant at a given place is
* `Literal.text`, `Literal.typeName` — its text and the name of its type
-/

namespace StubInference

/-- Where a code object stands: the number of the code that was read as a whole, and the positions
in constant pools and tuples that lead from there to it. -/
structure CodeSite where
  root : Nat
  path : List Nat
  deriving DecidableEq

/-- The place at a position inside another place. -/
def CodeSite.child (site : CodeSite) (index : Nat) : CodeSite :=
  { site with path := site.path ++ [index] }

/-- A constant known to the analysis. A double is given by its bits. -/
inductive Literal where
  | none
  | bool (value : Bool)
  | int (value : Int)
  | float (bits : UInt64)
  | str (value : String)
  | bytes (value : List UInt8)
  | ellipsis
  | tuple (items : List Literal)
  | code (site : CodeSite) (body : Code)

namespace Literal

mutual
/-- The literal that the constant at a given place is. -/
def ofConst (site : CodeSite) : ConstValue → Literal
  | .none => .none
  | .bool value => .bool value
  | .int value => .int value
  | .float bits => .float bits
  | .str value => .str value
  | .bytes value => .bytes value
  | .ellipsis => .ellipsis
  | .tuple items => .tuple (ofConsts site 0 items)
  | .code body => .code site body

/-- The literals of the items of a tuple, the first of which has the given position. -/
def ofConsts (site : CodeSite) (index : Nat) : List ConstValue → List Literal
  | [] => []
  | item :: rest => ofConst (site.child index) item :: ofConsts site (index + 1) rest
end

/-! ## Equality -/

mutual
/-- Whether two literals are the same: doubles bit by bit, code objects as occurrences. -/
def same : Literal → Literal → Bool
  | .none, .none => true
  | .bool a, .bool b => a == b
  | .int a, .int b => a == b
  | .float a, .float b => a == b
  | .str a, .str b => a == b
  | .bytes a, .bytes b => a == b
  | .ellipsis, .ellipsis => true
  | .tuple as, .tuple bs => sameAll as bs
  | .code s a, .code t b => s == t && a == b
  | _, _ => false

/-- Whether two lists of literals are the same item by item. -/
def sameAll : List Literal → List Literal → Bool
  | [], [] => true
  | a :: as, b :: bs => a.same b && sameAll as bs
  | _, _ => false
end

mutual
theorem same_refl (a : Literal) : a.same a = true := by
  cases a with
  | tuple items => simp [same, sameAll_refl items]
  | _ => simp [same]

theorem sameAll_refl (as : List Literal) : sameAll as as = true := by
  cases as with
  | nil => rfl
  | cons a as => simp [sameAll, same_refl a, sameAll_refl as]
end

mutual
theorem eq_of_same {a b : Literal} (h : a.same b = true) : a = b := by
  cases a <;> cases b <;> simp_all [same]
  case tuple.tuple => exact eq_of_sameAll h

theorem eq_of_sameAll {as bs : List Literal} (h : sameAll as bs = true) : as = bs := by
  cases as <;> cases bs <;> simp_all [sameAll]
  exact ⟨eq_of_same h.1, eq_of_sameAll h.2⟩
end

instance : DecidableEq Literal := fun a b =>
  if h : a.same b = true then isTrue (eq_of_same h)
  else isFalse fun e => h (e ▸ same_refl a)

/-! ## Text -/

/-- The name of the type of a literal. -/
def typeName : Literal → String
  | .none => "NoneType"
  | .bool _ => "bool"
  | .int _ => "int"
  | .float _ => "float"
  | .str _ => "str"
  | .bytes _ => "bytes"
  | .ellipsis => "ellipsis"
  | .tuple _ => "tuple"
  | .code _ _ => "code"

/-- Doubles have their shortest digits and never an exponent. Of two equally near decimals the
larger one is taken. -/
def plainLayout : Decimal.Layout where
  positional _ := true
  wholeMark := false
  plusSign := false
  tie := .up

/-- The text of a double: all digits and `.0` for a whole number, the shortest digits otherwise. -/
def floatText (bits : UInt64) : String :=
  match Decimal.wholeNumber? bits with
  | some (negative, value) => (if negative then "-" else "") ++ toString value ++ ".0"
  | Option.none => plainLayout.write bits

/-- A character of a text in single quotes. -/
def quotedChar (c : Char) : List Char :=
  if c = '\\' then ['\\', '\\'] else if c = '\'' then ['\\', '\''] else [c]

/-- A byte of a byte string in single quotes. -/
def quotedByte (byte : UInt8) : List Char :=
  let c := Char.ofNat byte.toNat
  if c = '\'' then ['\\', '\'']
  else if c = '\\' then ['\\', '\\']
  else if 0x20 ≤ byte && byte ≤ 0x7e then [c]
  else
    let digits := Nat.toDigits 16 byte.toNat
    ['\\', 'x'] ++ (if digits.length < 2 then '0' :: digits else digits)

mutual
/-- The text of a literal. -/
def text : Literal → String
  | .none => "None"
  | .bool true => "True"
  | .bool false => "False"
  | .int value => toString value
  | .float bits => floatText bits
  | .str value => String.ofList ('\'' :: (value.toList.flatMap quotedChar ++ ['\'']))
  | .bytes value => String.ofList ('b' :: '\'' :: (value.flatMap quotedByte ++ ['\'']))
  | .ellipsis => "Ellipsis"
  | .tuple [item] => "(" ++ item.text ++ ",)"
  | .tuple items => "(" ++ ", ".intercalate (texts items) ++ ")"
  | .code _ body => "<code " ++ body.qualifiedName ++ ">"

/-- The texts of several literals. -/
def texts : List Literal → List String
  | [] => []
  | item :: rest => item.text :: texts rest
end

/-! ## Shapes -/

/-- A kind of literal that can be taken apart: the word for it, and how to read one. A literal of
another kind is answered by the expected and the actual word. -/
structure Shape (α : Type) where
  word : String
  read : Literal → Except (String × String) α

namespace Shape

/-- Refuse a literal. -/
def refuse {α : Type} (word : String) (literal : Literal) : Except (String × String) α :=
  .error (word, literal.typeName)

/-- A text. -/
def str : Shape String where
  word := "str"
  read
    | .str value => pure value
    | other => refuse "str" other

/-- An integer. -/
def int : Shape Int where
  word := "int"
  read
    | .int value => pure value
    | other => refuse "int" other

/-- A double. -/
def float : Shape UInt64 where
  word := "float"
  read
    | .float bits => pure bits
    | other => refuse "float" other

/-- A truth value. -/
def bool : Shape Bool where
  word := "bool"
  read
    | .bool value => pure value
    | other => refuse "bool" other

/-- Any literal. -/
def any : Shape Literal where
  word := "constant"
  read := pure

/-- A tuple whose items have a shape. The first item that has not is the one reported. -/
def list {α : Type} (item : Shape α) : Shape (List α) where
  word := "tuple"
  read
    | .tuple items => items.mapM item.read
    | other => refuse "tuple" other

end Shape

end Literal

end StubInference
