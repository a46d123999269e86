import StubInference.Bytecode.Format
import StubInference.Proofs.Json.Records

/-!
# Code objects survive being written

A code object is written as a data tree and the tree as a text. Reading the text for the version of
the code object, or for any version where it names none, gives the code object back with all code
nested in its constants; for another version it is refused.

Counts, lines and integers have to fit in the words that the format gives them, and the tree may not
be nested deeper than the reader goes. Doubles are read with a rounding at each step of scaling, so
that a finite one reads back is asked of each double of the code object.

The proof follows the tree from its leaves: versions, operands and instructions, records over
constants that read back already, and then constants and code together, since each holds the other.

## Main definitions

* `Code.constants`, `Code.doubles` — all constants of a code object, those within other constants
  included, and the doubles among them
* `Code.Fits` — the numbers of a code object fit in their words

## Main results

* `Opcode.ofJson?_toJson`, `ConstValue.ofJson?_toJson`, `Code.ofJson?_toJson` — trees of
  instructions, constants and code objects read back
* `Code.read_compact` — the text of a code object reads back
-/

namespace StubInference

/-! ## Versions -/

namespace Version

theorem isSpace_of_isDigit {c : Char} (h : c.isDigit) : isSpace c = false := by
  simp only [Char.isDigit, Bool.and_eq_true, decide_eq_true_eq, UInt32.le_iff_toNat_le] at h
  have least : 48 ≤ c.toNat := h.1
  have most : c.toNat ≤ 57 := h.2
  simp only [isSpace, Bool.or_eq_false_iff, Bool.and_eq_false_iff, decide_eq_false_iff_not]
  omega

/-- Digits have no blanks around them. -/
theorem trim_of_isDigit {chars : List Char} (h : ∀ c ∈ chars, c.isDigit) : trim chars = chars := by
  have kept : ∀ {chars : List Char}, (∀ c ∈ chars, c.isDigit) → chars.dropWhile isSpace = chars := by
    intro chars h
    cases chars with
    | nil => rfl
    | cons c rest => simp [isSpace_of_isDigit (h c (List.mem_cons_self ..))]
  rw [trim, kept h, kept (by simpa using h), List.reverse_reverse]

/-- A number below 256 reads back. -/
theorem byte?_toDigits (n : UInt8) : byte? (Nat.toDigits 10 n.toNat) = some n := by
  have unsigned : ∀ rest, Nat.toDigits 10 n.toNat ≠ '+' :: rest := by
    intro rest h
    simpa using Json.isDigit_of_mem_toDigits '+' (h ▸ List.mem_cons_self ..)
  have value : (Nat.toDigits 10 n.toNat).foldl (fun n c => 10 * n + (c.toNat - 48)) 0 = n.toNat :=
    Nat.ofDigitChars_ten_toDigits
  have digits : (Nat.toDigits 10 n.toNat).all Char.isDigit := by
    simpa using Json.isDigit_of_mem_toDigits
  rw [byte?]
  · simp [digits, value, n.toNat_lt]
  · exact unsigned

theorem toList_text (version : Version) :
    version.text.toList =
      Nat.toDigits 10 version.major.toNat ++ '.' :: Nat.toDigits 10 version.minor.toNat := by
  simp [text, String.toList_append, toString]

/-- A version reads back. -/
theorem parse_text (version : Version) : parse version.text = .ok version := by
  -- no digit is a dot, so the first dot is the one between the two numbers
  have before : ∀ c ∈ Nat.toDigits 10 version.major.toNat, (!decide (c = '.')) = true := by
    intro c hc
    have digit := Json.isDigit_of_mem_toDigits c hc
    rw [Bool.not_eq_true', decide_eq_false_iff_not]
    rintro rfl
    simp at digit
  simp [parse, toList_text, List.takeWhile_append_of_pos before, List.dropWhile_append_of_pos before,
    trim_of_isDigit Json.isDigit_of_mem_toDigits, byte?_toDigits]

theorem ofJson?_text (version : Version) : ofJson? (.text version.text) = some version := by
  simp [ofJson?, Json.asText?, parse_text, Except.toOption]

end Version

/-! ## Instructions -/

namespace Opcode

/-- A count fits in a word of 64 bits. -/
def Operand.Fits : Operand → Prop
  | .count n => n < twoTo 64
  | .none | .name _ | .flags _ | .invert _ | .global _ _ => True

instance : (operand : Operand) → Decidable operand.Fits
  | .count n => inferInstanceAs (Decidable (n < twoTo 64))
  | .none | .name _ | .flags _ | .invert _ | .global _ _ => inferInstanceAs (Decidable True)

/-- The data that is written behind the name of an instruction. -/
def Operand.data? : Operand → Option Json
  | .none => Option.none
  | .count n => some (.ofNat n)
  | .name s => some (.text s)
  | .flags f => some (.ofNat f.toNat)
  | .invert b => some (.bool b)
  | .global s push => some (.object [("name", .text s), ("push_null", .bool push)])

/-- The instruction of a shape with this operand. -/
def Shape.make? : Shape → Operand → Option Opcode
  | .none op, .none => some op
  | .count make, .count n => some (make n)
  | .name make, .name s => some (make s)
  | .flags make, .flags f => some (make f)
  | .invert make, .invert b => some (make b)
  | .global make, .global s push => some (make s push)
  | _, _ => Option.none

/-- The name of an instruction tells its shape, and the operand then tells the instruction. -/
theorem shape?_name (op : Opcode) :
    ∃ shape, shape? op.name = some shape ∧ shape.make? op.operand = some op := by
  -- the table of names is looked up once for every instruction
  cases op <;> exact ⟨_, rfl, rfl⟩

theorem variant?_toJson (op : Opcode) :
    op.toJson.variant? = some (op.name, op.operand.data?) := by
  unfold toJson
  cases op.operand <;> rfl

theorem nesting_data? {op : Opcode} {depth : Nat} (shallow : op.toJson.nesting ≤ depth)
    {data : Json} (h : op.operand.data? = some data) : 0 < depth ∧ data.nesting ≤ depth - 1 := by
  have tree : op.toJson = .object [(op.name, data)] := by
    unfold toJson
    cases operand : op.operand <;> simp_all [Operand.data?]
  simpa [tree] using shallow

theorem legible_toJson {op : Opcode} (fits : op.operand.Fits) : op.toJson.Legible := by
  unfold toJson
  cases operand : op.operand with
  | count n =>
    rw [operand] at fits
    simpa using Json.legible_ofNat fits
  | flags f => simpa using Json.legible_ofNat (Nat.lt_trans f.toNat_lt (by decide))
  | none | name | invert | global => simp

/-- The data of an operand gives back the instruction that the operand makes. -/
theorem Shape.fill?_data? {shape : Shape} {operand : Operand} {op : Opcode} {depth : Nat}
    (made : shape.make? operand = some op) (fits : operand.Fits)
    (shallow : ∀ data, operand.data? = some data → data.nesting ≤ depth) :
    shape.fill? depth operand.data? = some op := by
  cases operand with
  | none => cases shape <;> simp_all [make?, fill?, Operand.data?]
  | count n =>
    have read := Json.asNat?_ofNat fits
    cases shape <;> simp_all [make?, fill?, Operand.data?]
  | name s => cases shape <;> simp_all [make?, fill?, Operand.data?, Json.asText?]
  | flags f =>
    have read : (Json.ofNat f.toNat).asNat? 256 = some f.toNat := Json.asNat?_ofNat f.toNat_lt
    cases shape <;> simp_all [make?, fill?, Operand.data?]
  | invert b => cases shape <;> simp_all [make?, fill?, Operand.data?, Json.asBool?]
  | global s push =>
    have opens : 0 < depth := (Json.nesting_object_le.mp (shallow _ rfl)).1
    have fields : (Json.object [("name", .text s), ("push_null", .bool push)]).fields?
        ["name", "push_null"] = some _ := Json.fields?_object rfl (by decide)
    cases shape with
    | global make =>
      rw [Operand.data?, fill?, Json.guard_bind opens]
      refine Option.bind_eq_some_iff.mpr ⟨_, fields, ?_⟩
      refine Json.required?_bind rfl rfl ?_
      refine Json.optional?_bind rfl rfl ?_
      exact made
    | none | count | name | flags | invert => cases made

/-- The tree of an instruction reads back. -/
theorem ofJson?_toJson {op : Opcode} (fits : op.operand.Fits) {depth : Nat}
    (shallow : op.toJson.nesting ≤ depth) : ofJson? depth op.toJson = some op := by
  obtain ⟨shape, known, made⟩ := shape?_name op
  have filled : shape.fill? (depth - 1) op.operand.data? = some op :=
    Shape.fill?_data? made fits fun _ h => (nesting_data? shallow h).2
  have read : ((shape? op.name).bind fun shape => shape.fill? (depth - 1) op.operand.data?) =
      some op := by rw [known, Option.bind_some, filled]
  rw [ofJson?, variant?_toJson]
  -- only an instruction with data opens an object
  cases data : op.operand.data? with
  | none =>
    rw [data] at read
    exact read
  | some data =>
    rw [data] at read
    exact (Json.guard_bind (nesting_data? shallow data).1 _).trans read

end Opcode

namespace Instruction

/-- The operand and the line of an instruction fit in their words. -/
structure Fits (instruction : Instruction) : Prop where
  operand : instruction.opcode.operand.Fits
  line : instruction.line < twoTo 32

instance (instruction : Instruction) : Decidable instruction.Fits :=
  decidable_of_iff (instruction.opcode.operand.Fits ∧ instruction.line < twoTo 32)
    ⟨fun ⟨operand, line⟩ => ⟨operand, line⟩, fun ⟨operand, line⟩ => ⟨operand, line⟩⟩

theorem legible_toJson {instruction : Instruction} (fits : instruction.Fits) :
    instruction.toJson.Legible := by
  have line : instruction.line < twoTo 64 := Nat.lt_trans fits.line (by decide)
  simp [toJson, Opcode.legible_toJson fits.operand, Json.legible_ofNat line]

theorem ofJson?_toJson {instruction : Instruction} (fits : instruction.Fits) {depth : Nat}
    (shallow : instruction.toJson.nesting ≤ depth) :
    ofJson? depth instruction.toJson = some instruction := by
  obtain ⟨opens, opcode, -⟩ : 0 < depth ∧ instruction.opcode.toJson.nesting ≤ depth - 1 ∧ _ := by
    simpa [toJson] using shallow
  have fields : instruction.toJson.fields? ["opcode", "line"] = some _ :=
    Json.fields?_object rfl (by decide)
  rw [ofJson?, Json.guard_bind opens]
  refine Option.bind_eq_some_iff.mpr ⟨_, fields, ?_⟩
  refine Json.required?_bind rfl (Opcode.ofJson?_toJson fits.operand opcode) ?_
  refine Json.optional?_bind rfl (Json.asNat?_ofNat fits.line) ?_
  rfl

end Instruction

/-- The tree of a list of blocks reads back. -/
theorem readBlocks?_toJson {blocks : List Block}
    (fits : ∀ block ∈ blocks, ∀ instruction ∈ block, instruction.Fits) {depth : Nat}
    (shallow : (Json.array (blocks.map fun block =>
      .array (block.map Instruction.toJson))).nesting ≤ depth) :
    readBlocks? depth (.array (blocks.map fun block => .array (block.map Instruction.toJson))) =
      some blocks := by
  rw [Json.nesting_array_le, List.forall_mem_map] at shallow
  rw [readBlocks?, if_pos shallow.1]
  apply Json.asList?_map_self
  intro block hblock
  have inner := shallow.2 block hblock
  rw [Json.nesting_array_le, List.forall_mem_map] at inner
  rw [readBlock?, if_pos inner.1]
  apply Json.asList?_map_self
  intro instruction hinstruction
  exact Instruction.ofJson?_toJson (fits block hblock instruction hinstruction)
    (inner.2 instruction hinstruction)

/-! ## Records of code objects -/

namespace CodeOver

/-- The counts and lines of a code object and of its instructions fit in their words. -/
structure CountsFit {Constant : Type} (code : CodeOver Constant) : Prop where
  firstLine : code.firstLine < twoTo 32
  argCount : code.argCount < twoTo 64
  posOnlyArgCount : code.posOnlyArgCount < twoTo 64
  kwOnlyArgCount : code.kwOnlyArgCount < twoTo 64
  instructions : ∀ block ∈ code.blocks, ∀ instruction ∈ block, instruction.Fits

instance {Constant : Type} (code : CodeOver Constant) : Decidable code.CountsFit :=
  decidable_of_iff
    (code.firstLine < twoTo 32 ∧ code.argCount < twoTo 64 ∧ code.posOnlyArgCount < twoTo 64 ∧
      code.kwOnlyArgCount < twoTo 64 ∧
      ∀ block ∈ code.blocks, ∀ instruction ∈ block, instruction.Fits)
    ⟨fun ⟨firstLine, argCount, posOnly, kwOnly, instructions⟩ =>
      ⟨firstLine, argCount, posOnly, kwOnly, instructions⟩,
     fun ⟨firstLine, argCount, posOnly, kwOnly, instructions⟩ =>
      ⟨firstLine, argCount, posOnly, kwOnly, instructions⟩⟩

variable {code : CodeOver ConstValue} {consts : List Json}

theorem legible_treeWith (fits : code.CountsFit) (legible : ∀ item ∈ consts, item.Legible) :
    (code.treeWith consts).Legible := by
  have firstLine := Json.legible_ofNat (Nat.lt_trans fits.firstLine (by decide))
  have version : (Json.ofOption (fun version => .text version.text) code.version).Legible := by
    cases code.version <;> trivial
  have blocks : ∀ block ∈ code.blocks, ∀ instruction ∈ block, instruction.toJson.Legible :=
    fun block hblock instruction h => Instruction.legible_toJson (fits.instructions block hblock _ h)
  simpa [treeWith, Json.ofTexts, firstLine, version, Json.legible_ofNat fits.argCount,
    Json.legible_ofNat fits.posOnlyArgCount, Json.legible_ofNat fits.kwOnlyArgCount]
    using And.intro legible blocks

/-- The constants of a record lie two levels deeper. -/
theorem nesting_treeWith {depth : Nat} (shallow : (code.treeWith consts).nesting ≤ depth) :
    2 ≤ depth ∧ ∀ item ∈ consts, item.nesting ≤ depth - 2 := by
  have member := (Json.nesting_object_le.mp shallow).2 ("consts", .array consts) (by simp)
  obtain ⟨opens, items⟩ := Json.nesting_array_le.mp member
  exact ⟨by omega, items⟩

/-- The record of a code object reads back when its constants do. -/
theorem ofRecord?_treeWith (fits : code.CountsFit) {readConst : Json → Option ConstValue}
    (read : consts.mapM readConst = some code.consts) {depth : Nat}
    (shallow : (code.treeWith consts).nesting ≤ depth + 1) :
    Code.ofRecord? depth readConst (code.treeWith consts) = some code := by
  have opens : 0 < depth := Nat.lt_of_succ_lt_succ (nesting_treeWith shallow).1
  have version : (Json.ofOption (fun version => Json.text version.text) code.version).asOptional?
      Version.ofJson? = some code.version :=
    Json.asOptional?_ofOption (fun version _ => Version.ofJson?_text version) (by simp)
  have varNames : (if 0 < depth then (Json.ofTexts code.varNames).asTexts? else none) =
      some code.varNames := by
    rw [if_pos opens, Json.asTexts?_ofTexts]
  have constants : (if 0 < depth then (Json.array consts).asList? readConst else none) =
      some code.consts := by
    rw [if_pos opens]
    exact read
  have blocks : readBlocks? depth (.array (code.blocks.map fun block =>
      .array (block.map Instruction.toJson))) = some code.blocks :=
    readBlocks?_toJson fits.instructions
      ((Json.nesting_object_le.mp shallow).2 ("blocks", _) (by simp))
  have fields : (code.treeWith consts).fields? Code.fieldNames = some _ :=
    Json.fields?_object rfl (by decide)
  -- one member after the other, in the order in which they are read
  rw [Code.ofRecord?]
  refine Option.bind_eq_some_iff.mpr ⟨_, fields, ?_⟩
  refine Json.required?_bind rfl rfl ?_
  refine Json.optional?_bind rfl rfl ?_
  refine Json.optional?_bind rfl rfl ?_
  refine Json.optional?_bind rfl (Json.asNat?_ofNat fits.firstLine) ?_
  refine Json.optional?_bind rfl version ?_
  refine Json.optional?_bind rfl (Json.asNat?_ofNat fits.argCount) ?_
  refine Json.optional?_bind rfl (Json.asNat?_ofNat fits.posOnlyArgCount) ?_
  refine Json.optional?_bind rfl (Json.asNat?_ofNat fits.kwOnlyArgCount) ?_
  refine Json.optional?_bind rfl rfl ?_
  refine Json.optional?_bind rfl rfl ?_
  refine Json.optional?_bind rfl varNames ?_
  refine Json.optional?_bind rfl constants ?_
  refine Json.required?_bind rfl blocks ?_
  rfl

end CodeOver

/-! ## Constants -/

namespace ConstValue

mutual
/-- A constant and all constants within it, those of nested code included. -/
def within : ConstValue → List ConstValue
  | .tuple items => .tuple items :: withinAll items
  | .code ⟨name, qualName, fileName, firstLine, version, argCount, posOnly, kwOnly, varArgs,
      varKeywords, varNames, consts, blocks⟩ =>
    .code ⟨name, qualName, fileName, firstLine, version, argCount, posOnly, kwOnly, varArgs,
      varKeywords, varNames, consts, blocks⟩ :: withinAll consts
  | .none => [.none]
  | .bool value => [.bool value]
  | .int value => [.int value]
  | .float bits => [.float bits]
  | .str value => [.str value]
  | .bytes value => [.bytes value]
  | .ellipsis => [.ellipsis]

/-- Several constants and all constants within them. -/
def withinAll : List ConstValue → List ConstValue
  | [] => []
  | value :: rest => within value ++ withinAll rest
end

theorem toJson_code (body : Code) :
    (ConstValue.code body).toJson = .object [("Code", body.toJson)] := by
  obtain ⟨⟩ := body
  rfl

/-! The readers of constants, variant by variant. -/

theorem ofJson?_none (depth : Nat) : ofJson? depth (.text "None") = some .none := by
  cases depth <;> rfl

theorem ofJson?_ellipsis (depth : Nat) : ofJson? depth (.text "Ellipsis") = some .ellipsis := by
  cases depth <;> rfl

theorem ofJson?_tuple (depth : Nat) (items : List Json) :
    ofJson? (depth + 2) (.object [("Tuple", .array items)]) =
      (items.mapM (ofJson? depth)).map .tuple := rfl

theorem ofJson?_code (depth : Nat) (body : Json) :
    ofJson? (depth + 3) (.object [("Code", body)]) =
      (Code.ofRecord? (depth + 1) (ofJson? depth) body).map .code := rfl

theorem ofJson?_leaf {name : String} (h : name ∈ ["Bool", "Int", "Float", "Str", "Bytes"])
    (depth : Nat) (data : Json) :
    ofJson? (depth + 1) (.object [(name, data)]) = leaf? depth name data := by
  simp only [List.mem_cons, List.not_mem_nil, or_false] at h
  rcases h with rfl | rfl | rfl | rfl | rfl <;> cases depth <;> rfl

/-- An integer fits in a signed word of 64 bits, and the numbers of a code object in their words.
What stands within the constant is not looked at. -/
def Fits : ConstValue → Prop
  | .int value => -(twoTo 63 : Int) ≤ value ∧ value < twoTo 63
  | .code body => body.CountsFit
  | .none | .bool _ | .float _ | .str _ | .bytes _ | .ellipsis | .tuple _ => True

instance : (value : ConstValue) → Decidable value.Fits
  | .int value => inferInstanceAs (Decidable (-(twoTo 63 : Int) ≤ value ∧ value < twoTo 63))
  | .code body => inferInstanceAs (Decidable body.CountsFit)
  | .none | .bool _ | .float _ | .str _ | .bytes _ | .ellipsis | .tuple _ =>
    inferInstanceAs (Decidable True)

mutual
theorem legible_toJson : ∀ (value : ConstValue), (∀ part ∈ value.within, part.Fits) →
    (∀ bits, .float bits ∈ value.within → (Json.Number.double bits).ReadsBack) →
    value.toJson.Legible
  | .none, _, _ | .bool _, _, _ | .str _, _, _ | .ellipsis, _, _ => by simp [toJson]
  | .int _, fits, _ => by
    have range := fits _ (List.mem_singleton_self _)
    simpa [toJson] using Json.legible_ofInt range.1 range.2
  | .float bits, _, floats => by
    have back : (Json.number (.double bits)).Legible := floats bits (List.mem_singleton_self _)
    simpa [toJson] using back
  | .bytes value, _, _ => by
    have small : ∀ byte ∈ value, (Json.ofNat byte.toNat).Legible :=
      fun byte _ => Json.legible_ofNat (Nat.lt_trans byte.toNat_lt (by decide))
    simpa [toJson] using small
  | .tuple items, fits, floats => by
    rw [within, List.forall_mem_cons] at fits
    have inner := legible_toJsonAll items fits.2 fun bits h => floats bits (.tail _ h)
    simpa [toJson] using inner
  | .code ⟨name, qualName, fileName, firstLine, version, argCount, posOnly, kwOnly, varArgs,
      varKeywords, varNames, consts, blocks⟩, fits, floats => by
    rw [within, List.forall_mem_cons] at fits
    have inner := legible_toJsonAll consts fits.2 fun bits h => floats bits (.tail _ h)
    have record := CodeOver.legible_treeWith fits.1 inner
    exact Json.legible_object.mpr (List.forall_mem_singleton.mpr record)

theorem legible_toJsonAll : ∀ (values : List ConstValue),
    (∀ part ∈ withinAll values, part.Fits) →
    (∀ bits, .float bits ∈ withinAll values → (Json.Number.double bits).ReadsBack) →
    ∀ item ∈ toJsonAll values, item.Legible
  | [], _, _ => by simp [toJsonAll]
  | value :: rest, fits, floats => by
    rw [withinAll, List.forall_mem_append] at fits
    rw [toJsonAll, List.forall_mem_cons]
    constructor
    · exact legible_toJson value fits.1 fun bits h => floats bits (List.mem_append_left _ h)
    · exact legible_toJsonAll rest fits.2 fun bits h => floats bits (List.mem_append_right _ h)
end

mutual
/-- The tree of a constant reads back. The induction is on the constant, for every depth, since each
level of nesting takes some of it. -/
theorem ofJson?_toJson : ∀ (value : ConstValue), (∀ part ∈ value.within, part.Fits) →
    ∀ depth, value.toJson.nesting ≤ depth → ofJson? depth value.toJson = some value
  | .none, _, depth, _ => ofJson?_none depth
  | .ellipsis, _, depth, _ => ofJson?_ellipsis depth
  | .bool value, _, depth + 1, _ => ofJson?_leaf (by simp) depth _
  | .str value, _, depth + 1, _ => ofJson?_leaf (by simp) depth _
  | .float bits, _, depth + 1, _ => ofJson?_leaf (by simp) depth _
  | .int value, fits, depth + 1, _ => by
    have range : -(twoTo 63 : Int) ≤ value ∧ value < twoTo 63 := fits _ (List.mem_singleton_self _)
    rw [toJson, ofJson?_leaf (by simp)]
    simp only [leaf?, Json.ofInt, Json.asInt?, Option.bind_some]
    rw [if_pos range]
  | .bytes value, _, depth + 1, shallow => by
    have list := List.forall_mem_singleton.mp (Json.nesting_object_le.mp shallow).2
    have opens : 0 < depth := (Json.nesting_array_le.mp list).1
    have bytes : (Json.array (value.map fun byte => .ofNat byte.toNat)).asList? (Json.asNat? 256) =
        some (value.map UInt8.toNat) :=
      Json.asList?_map fun byte _ => Json.asNat?_ofNat byte.toNat_lt
    rw [toJson, ofJson?_leaf (by simp)]
    simp only [leaf?]
    rw [if_pos opens, bytes]
    simp [Function.comp_def]
  | .tuple items, fits, depth, shallow => by
    rw [within, List.forall_mem_cons] at fits
    simp only [toJson, Json.nesting_object_le, List.forall_mem_singleton,
      Json.nesting_array_le] at shallow
    obtain ⟨-, opens, shallow⟩ := shallow
    -- the variant and its list are open around the items
    obtain ⟨inner, rfl⟩ : ∃ inner, depth = inner + 2 := ⟨depth - 2, by omega⟩
    rw [toJson, ofJson?_tuple, mapM_ofJson?_toJsonAll items fits.2 inner shallow, Option.map_some]
  | .code ⟨name, qualName, fileName, firstLine, version, argCount, posOnly, kwOnly, varArgs,
      varKeywords, varNames, consts, blocks⟩, fits, depth, shallow => by
    rw [within, List.forall_mem_cons] at fits
    rw [toJson_code, Json.nesting_object_le, List.forall_mem_singleton] at shallow
    obtain ⟨deep, items⟩ := CodeOver.nesting_treeWith shallow.2
    -- the variant, the record and its list of constants are open around these
    obtain ⟨inner, rfl⟩ : ∃ inner, depth = inner + 3 := ⟨depth - 3, by omega⟩
    have read := mapM_ofJson?_toJsonAll consts fits.2 inner items
    have record := CodeOver.ofRecord?_treeWith fits.1 read shallow.2
    rw [toJson_code, ofJson?_code, Code.toJson, record, Option.map_some]
  | .bool _, _, 0, shallow | .str _, _, 0, shallow | .float _, _, 0, shallow
  | .int _, _, 0, shallow | .bytes _, _, 0, shallow =>
    absurd (Json.nesting_object_le.mp shallow).1 (Nat.lt_irrefl 0)

theorem mapM_ofJson?_toJsonAll : ∀ (values : List ConstValue),
    (∀ part ∈ withinAll values, part.Fits) →
    ∀ depth, (∀ item ∈ toJsonAll values, item.nesting ≤ depth) →
    (toJsonAll values).mapM (ofJson? depth) = some values
  | [], _, _, _ => rfl
  | value :: rest, fits, depth, shallow => by
    rw [withinAll, List.forall_mem_append] at fits
    rw [toJsonAll, List.forall_mem_cons] at shallow
    simp [toJsonAll, ofJson?_toJson value fits.1 depth shallow.1,
      mapM_ofJson?_toJsonAll rest fits.2 depth shallow.2]
end

end ConstValue

/-! ## Code objects -/

namespace Code

/-- All constants of a code object, those within other constants and in nested code included. -/
def constants (code : Code) : List ConstValue := ConstValue.withinAll code.consts

/-- The bits of the doubles among these constants. -/
def doubles (code : Code) : List UInt64 :=
  code.constants.filterMap fun
    | .float bits => some bits
    | _ => none

theorem mem_doubles {code : Code} {bits : UInt64} :
    bits ∈ code.doubles ↔ ConstValue.float bits ∈ code.constants := by
  rw [doubles, List.mem_filterMap]
  constructor
  · rintro ⟨value, member, float⟩
    cases value <;> simp_all
  · intro member
    exact ⟨_, member, rfl⟩

/-- The numbers of a code object and of its constants fit in their words. -/
structure Fits (code : Code) : Prop where
  counts : code.CountsFit
  constants : ∀ value ∈ code.constants, value.Fits

instance (code : Code) : Decidable (Fits code) :=
  decidable_of_iff (code.CountsFit ∧ ∀ value ∈ code.constants, value.Fits)
    ⟨fun ⟨counts, constants⟩ => ⟨counts, constants⟩,
     fun ⟨counts, constants⟩ => ⟨counts, constants⟩⟩

/-- The tree of a code object reads back. -/
theorem ofJson?_toJson {code : Code} (fits : code.Fits)
    (shallow : code.toJson.nesting ≤ nestingLimit) : ofJson? code.toJson = some code := by
  obtain ⟨-, items⟩ := CodeOver.nesting_treeWith shallow
  have read := ConstValue.mapM_ofJson?_toJsonAll code.consts fits.constants (nestingLimit - 2) items
  exact CodeOver.ofRecord?_treeWith fits.counts read shallow

/-- The text of a code object reads back when its doubles do. -/
theorem parse?_compact {code : Code} (fits : code.Fits)
    (numerals : ∀ bits ∈ code.doubles, (Json.Number.double bits).ReadsBack)
    (shallow : code.toJson.nesting ≤ nestingLimit) :
    (Json.parse? code.toJson.compact).bind ofJson? = some code := by
  have constants := ConstValue.legible_toJsonAll code.consts fits.constants
    fun bits h => numerals bits (mem_doubles.mpr h)
  have legible : code.toJson.Legible := CodeOver.legible_treeWith fits.counts constants
  rw [Json.parse?_compact legible, Option.bind_some, ofJson?_toJson fits shallow]

/-- A code object whose doubles are finite survives being written and read. Reading it for the
version that it was compiled for, or for any version where it names none, gives it back with all
code nested in its constants. Reading it for another version is refused. -/
theorem read_compact {code : Code} (fits : code.Fits)
    (finite : ∀ bits ∈ code.doubles, (Decimal.Double.ofBits bits).IsFinite)
    (numerals : ∀ bits ∈ code.doubles, (Decimal.Double.ofBits bits).IsFinite →
      (Json.Number.double bits).ReadsBack)
    (shallow : code.toJson.nesting ≤ nestingLimit) (version : Version) :
    ((∀ found, code.version = some found → found = version) →
      read code.toJson.compact version none = .ok code) ∧
    (∀ found, code.version = some found → found ≠ version →
      read code.toJson.compact version none = .error (.versionMismatch version found)) := by
  have back := parse?_compact fits (fun bits h => numerals bits h (finite bits h)) shallow
  constructor
  · intro same
    cases known : code.version with
    | none => simp [read, back, known, pure, Except.pure, bind, Except.bind]
    | some found =>
      obtain rfl := same found known
      simp [read, back, known, pure, Except.pure, bind, Except.bind]
  · intro found known other
    simp [read, back, known, other, pure, Except.pure, bind, Except.bind, throw, throwThe,
      MonadExceptOf.throw]

/-- A module for one version that holds a function in a tuple and constants of every other kind. -/
def moduleWithFunction : Code where
  name := "<module>"
  qualName := "<module>"
  fileName := "m.py"
  firstLine := 1
  version := some ⟨3, 11⟩
  argCount := 0
  posOnlyArgCount := 0
  kwOnlyArgCount := 0
  varArgs := false
  varKeywords := false
  varNames := []
  consts := [.tuple [.code function, .int (-1)], .float 0x3FF8000000000000, .str "\"\n", .none,
    .bytes [0, 255], .bool true, .ellipsis]
  blocks := [[⟨.loadConst 0, 1⟩, ⟨.makeFunction 1, 1⟩], [⟨.returnValue, 2⟩]]
where
  function : Code := {
    name := "f"
    qualName := "f"
    fileName := "m.py"
    firstLine := 1
    version := none
    argCount := 1
    posOnlyArgCount := 1
    kwOnlyArgCount := 1
    varArgs := true
    varKeywords := true
    varNames := ["x", "k", "args", "kwargs"]
    consts := [.float 0]
    blocks := [[⟨.loadGlobal "len" true, 2⟩, ⟨.isOp true, 2⟩, ⟨.returnValue, 2⟩]] }

theorem read_moduleWithFunction :
    read moduleWithFunction.toJson.compact ⟨3, 11⟩ none = .ok moduleWithFunction ∧
      read moduleWithFunction.toJson.compact ⟨3, 12⟩ none =
        .error (.versionMismatch ⟨3, 12⟩ ⟨3, 11⟩) := by
  have doubles : moduleWithFunction.doubles = [0, 0x3FF8000000000000] := by decide +kernel
  have finite : ∀ bits ∈ moduleWithFunction.doubles, (Decimal.Double.ofBits bits).IsFinite := by
    rw [doubles, List.forall_mem_cons, List.forall_mem_singleton]
    decide +kernel
  have numerals : ∀ bits ∈ moduleWithFunction.doubles, (Decimal.Double.ofBits bits).IsFinite →
      (Json.Number.double bits).ReadsBack := by
    rw [doubles, List.forall_mem_cons, List.forall_mem_singleton]
    decide +kernel
  have survives := read_compact (by decide +kernel) finite numerals (by decide +kernel)
  constructor
  · exact (survives ⟨3, 11⟩).1 fun found known => (Option.some.inj known).symm
  · exact (survives ⟨3, 12⟩).2 ⟨3, 11⟩ rfl (by decide)

end Code

end StubInference
