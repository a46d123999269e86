import StubInference.Bytecode.Builder
import StubInference.Call.Signature
import StubInference.Proofs.Bytecode.Layout
import StubInference.Proofs.Occurrences

/-!
# What is built

A code object is built in steps, in any order and any number of each. Every step appends to some parts of
the builder or replaces them, so what is built is told by the steps alone: parameters are appended, the
names of the variadic ones are replaced, and instructions are appended to the open block.

## Main definitions

* `BuildStep`, `CodeBuilder.take`, `CodeBuilder.assemble` — one step, and steps one after the other
* `CodeBuilder.added`, `CodeBuilder.emitted` — the instructions that a step adds, and that steps add

## Main results

* `CodeBuilder.take_eq` — what a step does to each part of a builder
* `CodeBuilder.hasLayout_assemble`, `CodeBuilder.laidOut_build` — the parameters of what is built
* `CodeBuilder.flatten_assemble`, `CodeBuilder.flatten_build` — its instructions
* `CodeBuilder.build_layout` — both, and where a block lies that was announced
-/

namespace StubInference

/-- One step of building a code object. -/
inductive BuildStep where
  | qualName (name : String)
  | params (names : List String)
  | posOnly (count : Nat)
  | kwOnly (names : List String)
  | varArgs (name : String)
  | varKeywords (name : String)
  | line (line : Nat)
  | op (opcode : Opcode)
  | addConst (value : ConstValue)
  | loadConst (value : ConstValue)
  | kwNames (names : List String)
  | newBlock
  | defFunction (code : Code) (name : String)
  | defClass (body : Code) (name : String) (bases : List String)
  | returnNone

namespace BuildStep

/-! ## What a step says about the parameters -/

/-- The positional parameters that a step adds. -/
@[simp] def positional : BuildStep → List String
  | params names => names
  | _ => []

/-- The keyword-only parameters that a step adds. -/
@[simp] def keywordOnly : BuildStep → List String
  | kwOnly names => names
  | _ => []

/-- How many positional-only parameters a step says there are. -/
@[simp] def posOnlyCount? : BuildStep → Option Nat
  | posOnly count => some count
  | _ => none

/-- The name that a step gives to the parameter for the remaining positional arguments. -/
@[simp] def varArgs? : BuildStep → Option String
  | varArgs name => some name
  | _ => none

/-- The name that a step gives to the parameter for the remaining keyword arguments. -/
@[simp] def varKeywords? : BuildStep → Option String
  | varKeywords name => some name
  | _ => none

/-- The constants that a step puts into the pool, or finds there. -/
@[simp] def given : BuildStep → List ConstValue
  | addConst value | loadConst value => [value]
  | kwNames names => [.tuple (names.map .str)]
  | defFunction code _ => [.code code]
  | defClass body name _ => [.code body, .str name]
  | returnNone => [.none]
  | _ => []

end BuildStep

namespace CodeBuilder

/-- The builder after a step. -/
def take (b : CodeBuilder) : BuildStep → CodeBuilder
  | .qualName name => b.withQualName name
  | .params names => b.addParams names
  | .posOnly count => b.withPosOnly count
  | .kwOnly names => b.addKwOnly names
  | .varArgs name => b.withVarArgs name
  | .varKeywords name => b.withVarKeywords name
  | .line line => b.atLine line
  | .op opcode => b.op opcode
  | .addConst value => (b.addConst value).1
  | .loadConst value => b.loadConst value
  | .kwNames names => b.kwNames names
  | .newBlock => b.newBlock
  | .defFunction code name => b.defFunction code name
  | .defClass body name bases => b.defClass body name bases
  | .returnNone => b.returnNone

/-- The builder after steps. -/
def assemble (b : CodeBuilder) (steps : List BuildStep) : CodeBuilder := steps.foldl take b

variable (b : CodeBuilder) (step : BuildStep) (steps : List BuildStep)

theorem assemble_cons : b.assemble (step :: steps) = (b.take step).assemble steps := rfl

theorem assemble_append (later : List BuildStep) :
    b.assemble (steps ++ later) = (b.assemble steps).assemble later := List.foldl_append

/-! ## The pool -/

/-- The position of a constant in the pool once it is added. -/
def constIndex (value : ConstValue) : Nat := (b.addConst value).2

/-- Adding a constant gathers it in the pool and leaves everything else alone. -/
theorem addConst_fst (value : ConstValue) : (b.addConst value).1 =
    { b with consts := gatherBy (ConstValue.agree sameNumber) b.consts [value] } := by
  unfold addConst
  cases found : b.consts.findIdx? fun known => known.agree sameNumber value with
  | none =>
    have new : ¬ b.consts.any (ConstValue.agree sameNumber · value) = true := by
      rw [List.any_eq_true]
      rintro ⟨known, hknown, same⟩
      exact absurd same (by simpa using List.findIdx?_eq_none_iff.mp found known hknown)
    rw [gatherBy_cons, if_neg new]
    rfl
  | some index =>
    have known : b.consts.any (ConstValue.agree sameNumber · value) = true := by
      rw [List.any_eq_true]
      obtain ⟨hlt, same, -⟩ := List.findIdx?_eq_some_iff_getElem.mp found
      exact ⟨_, List.getElem_mem hlt, same⟩
    rw [gatherBy_cons, if_pos known]
    rfl

theorem constIndex_eq (value : ConstValue) : b.constIndex value =
    (b.consts.findIdx? fun known => known.agree sameNumber value).getD b.consts.length := by
  unfold constIndex addConst
  cases b.consts.findIdx? fun known => known.agree sameNumber value <;> rfl

/-- Loading a constant adds it and an instruction for its position. -/
theorem loadConst_eq (value : ConstValue) :
    b.loadConst value = (b.addConst value).1.op (.loadConst (b.constIndex value)) := rfl

theorem kwNames_eq (names : List String) : b.kwNames names =
    (b.addConst (.tuple (names.map .str))).1.op
      (.kwNames (b.constIndex (.tuple (names.map .str)))) := rfl

/-! ## The instructions of a step -/

/-- The instructions that a step adds. -/
@[simp] def added : BuildStep → Block
  | .op opcode => [⟨opcode, b.line⟩]
  | .loadConst value => [⟨.loadConst (b.constIndex value), b.line⟩]
  | .kwNames names => [⟨.kwNames (b.constIndex (.tuple (names.map .str))), b.line⟩]
  | .defFunction code name =>
    [⟨.loadConst (b.constIndex (.code code)), b.line⟩, ⟨.makeFunction 0, b.line⟩,
      ⟨.storeName name, b.line⟩]
  | .defClass body name bases =>
    let named := (b.addConst (.code body)).1
    [⟨.pushNull, b.line⟩, ⟨.loadBuildClass, b.line⟩,
      ⟨.loadConst (b.constIndex (.code body)), b.line⟩, ⟨.makeFunction 0, b.line⟩,
      ⟨.loadConst (named.constIndex (.str name)), b.line⟩] ++
    bases.map (⟨.loadName ·, b.line⟩) ++
    [⟨.call (2 + bases.length), b.line⟩, ⟨.storeName name, b.line⟩]
  | .returnNone => [⟨.loadConst (b.constIndex .none), b.line⟩, ⟨.returnValue, b.line⟩]
  | _ => []

/-- The instructions that steps add, in order. -/
def emitted (b : CodeBuilder) : List BuildStep → Block
  | [] => []
  | step :: rest => b.added step ++ (b.take step).emitted rest

theorem foldl_loadName (b : CodeBuilder) (bases : List String) :
    bases.foldl (fun b base => b.op (.loadName base)) b =
      { b with current := b.current ++ bases.map (⟨.loadName ·, b.line⟩) } := by
  induction bases generalizing b with
  | nil => simp
  | cons base bases ih => rw [List.foldl_cons, ih]; simp [op]

/-- The block that a step closes. -/
@[simp] def closed : BuildStep → List Block
  | .newBlock => [b.current]
  | _ => []

/-- The open block after a step. -/
@[simp] def opened : BuildStep → Block
  | .newBlock => []
  | step => b.current ++ b.added step

/-- What a step does to each part of the builder. -/
theorem take_eq : b.take step =
    { b.take step with
      positional := b.positional ++ step.positional
      posOnlyCount := step.posOnlyCount?.getD b.posOnlyCount
      kwOnly := b.kwOnly ++ step.keywordOnly
      varArgs := step.varArgs?.or b.varArgs
      varKeywords := step.varKeywords?.or b.varKeywords
      consts := gatherBy (ConstValue.agree sameNumber) b.consts step.given
      blocks := b.blocks ++ b.closed step
      current := b.opened step } := by
  cases step with
  | addConst value => simp [take, addConst_fst]
  | loadConst value => simp [take, loadConst_eq, addConst_fst, op]
  | kwNames names => simp [take, kwNames_eq, addConst_fst, op]
  | defFunction code name => simp [take, defFunction, loadConst_eq, addConst_fst, op]
  | defClass body name bases =>
    -- the name is added behind the code object, to the pool that has it
    have both : gatherBy (ConstValue.agree sameNumber)
        (gatherBy (ConstValue.agree sameNumber) b.consts [.code body]) [.str name] =
        gatherBy (ConstValue.agree sameNumber) b.consts [.code body, .str name] := rfl
    simp only [take, defClass, foldl_loadName]
    simp [loadConst_eq, addConst_fst, op, constIndex_eq, both]
  | returnNone => simp [take, returnNone, loadConst_eq, addConst_fst, op]
  | _ => simp [take, withQualName, addParams, withPosOnly, addKwOnly, withVarArgs, withVarKeywords,
      atLine, op, newBlock, gatherBy]

/-! ## Steps one after the other -/

/-- What every step appends to a part of the builder, or leaves alone. -/
theorem appended_assemble {α : Type} (read : CodeBuilder → List α) (more : BuildStep → List α)
    (h : ∀ b step, read (take b step) = read b ++ more step) (b : CodeBuilder) (steps : List BuildStep) :
    read (b.assemble steps) = read b ++ steps.flatMap more := by
  induction steps generalizing b with
  | nil => exact (List.append_nil _).symm
  | cons step steps ih => rw [assemble_cons, ih, h, List.flatMap_cons, List.append_assoc]

/-- What every step replaces, or leaves alone, is as the last one of them says. -/
theorem latest_assemble {α : Type} (read : CodeBuilder → Option α) (said : BuildStep → Option α)
    (h : ∀ b step, read (take b step) = (said step).or (read b)) (b : CodeBuilder)
    (steps : List BuildStep) :
    read (b.assemble steps) = (steps.filterMap said).getLast?.or (read b) := by
  induction steps generalizing b with
  | nil => rfl
  | cons step steps ih =>
    rw [assemble_cons, ih, h, List.filterMap_cons]
    -- what the step says counts only if no later step says anything
    cases said step with
    | none => rfl
    | some a => cases steps.filterMap said <;> simp [List.getLast?_cons]

/-! ## Parameters -/

/-- The parameters that a builder has been told. -/
structure HasLayout (b : CodeBuilder) (steps : List BuildStep) : Prop where
  positional : b.positional = steps.flatMap BuildStep.positional
  posOnlyCount : b.posOnlyCount = (steps.filterMap BuildStep.posOnlyCount?).getLast?.getD 0
  kwOnly : b.kwOnly = steps.flatMap BuildStep.keywordOnly
  varArgs : b.varArgs = (steps.filterMap BuildStep.varArgs?).getLast?
  varKeywords : b.varKeywords = (steps.filterMap BuildStep.varKeywords?).getLast?

theorem hasLayout_assemble (name : String) (steps : List BuildStep) :
    HasLayout ((new name).assemble steps) steps where
  positional := appended_assemble (·.positional) _ (fun b step => by rw [take_eq]) _ _
  posOnlyCount := by
    have latest := latest_assemble (some ·.posOnlyCount) BuildStep.posOnlyCount?
      (fun b step => by rw [take_eq]; cases step.posOnlyCount? <;> rfl) (new name) steps
    simpa [Option.or_some, new] using latest
  kwOnly := appended_assemble (·.kwOnly) _ (fun b step => by rw [take_eq]) _ _
  varArgs := by
    have latest := latest_assemble (·.varArgs) BuildStep.varArgs? (fun b step => by rw [take_eq])
      (new name) steps
    simpa [new] using latest
  varKeywords := by
    have latest := latest_assemble (·.varKeywords) BuildStep.varKeywords?
      (fun b step => by rw [take_eq]) (new name) steps
    simpa [new] using latest

/-! ### What is built -/

theorem positionalParams_build : b.build.positionalParams = b.positional := by
  simp [CodeOver.positionalParams, build]

theorem kwOnlyParams_build : b.build.kwOnlyParams = b.kwOnly := by
  simp [CodeOver.kwOnlyParams, build]

/-- The first name behind the named parameters. -/
theorem varArgsName?_build : b.build.varArgsName? = b.varArgs := by
  cases given : b.varArgs <;> simp [CodeOver.varArgsName?, build, given]

/-- The last name, which comes behind that of the remaining positional arguments, if there is one. -/
theorem varKeywordsName?_build : b.build.varKeywordsName? = b.varKeywords := by
  have place : (b.positional ++ b.kwOnly ++ b.varArgs.toList).length =
      b.positional.length + b.kwOnly.length + b.varArgs.isSome.toNat := by
    cases b.varArgs <;> simp [Nat.add_assoc]
  cases given : b.varKeywords with
  | none => simp [CodeOver.varKeywordsName?, build, given]
  | some name =>
    simp only [CodeOver.varKeywordsName?, build, given, Option.isSome_some, if_true, ← place]
    simp

/-- The counts fit in words as long as the named parameters and the two variadic ones do. -/
theorem sumsFit_build (few : b.positional.length + b.kwOnly.length + 1 < twoTo 64) :
    b.build.SumsFit where
  named := by
    change b.positional.length + b.kwOnly.length < _
    omega
  keywords _ := by
    change b.positional.length + b.kwOnly.length + b.varArgs.isSome.toNat < _
    have := Bool.toNat_le b.varArgs.isSome
    omega

/-! ## Blocks -/

/-- Closing a block moves its instructions, and no step does more than to append to them. -/
theorem flatten_take : (b.take step).blocks.flatten ++ (b.take step).current =
    b.blocks.flatten ++ b.current ++ b.added step := by
  rw [take_eq]
  cases step <;> simp

theorem flatten_assemble (b : CodeBuilder) (steps : List BuildStep) :
    (b.assemble steps).blocks.flatten ++ (b.assemble steps).current =
      b.blocks.flatten ++ b.current ++ b.emitted steps := by
  induction steps generalizing b with
  | nil => simp [assemble, emitted]
  | cons step steps ih => rw [assemble_cons, ih, flatten_take, emitted, List.append_assoc]

theorem flatten_build : b.build.blocks.flatten = b.blocks.flatten ++ b.current := by
  unfold build
  dsimp only
  split
  case isTrue empty =>
    have empty : b.current = [] := by simp_all
    rw [empty, List.append_nil]
  case isFalse => simp [newBlock]

/-- Steps that close no block leave the closed ones as they are. -/
theorem assemble_of_open {steps : List BuildStep} (b : CodeBuilder) (within : .newBlock ∉ steps) :
    (b.assemble steps).blocks = b.blocks ∧ (b.assemble steps).current = b.current ++ b.emitted steps := by
  induction steps generalizing b with
  | nil => exact ⟨rfl, (List.append_nil _).symm⟩
  | cons step steps ih =>
    rw [List.mem_cons, not_or] at within
    obtain ⟨open_, within⟩ := within
    obtain ⟨blocks, current⟩ := ih (b.take step) within
    have stays : (b.take step).blocks = b.blocks ∧ (b.take step).current = b.current ++ b.added step := by
      rw [take_eq]
      cases step <;> simp_all
    rw [assemble_cons, blocks, current, stays.1, stays.2, emitted, List.append_assoc]
    exact ⟨rfl, rfl⟩

/-- Closed blocks stay in front. -/
theorem blocks_prefix_assemble (b : CodeBuilder) (steps : List BuildStep) :
    b.blocks <+: (b.assemble steps).blocks := by
  induction steps generalizing b with
  | nil => exact List.prefix_rfl
  | cons step steps ih =>
    refine List.IsPrefix.trans ?_ (ih (b.take step))
    rw [take_eq]
    exact List.prefix_append ..

theorem blocks_prefix_build : b.blocks <+: b.build.blocks := by
  unfold build
  dsimp only
  split
  · exact List.prefix_rfl
  · exact List.prefix_append ..

/-- The block that is opened by a step lies where the builder announced it before the step, once it has an
instruction. -/
theorem getElem?_announced (b : CodeBuilder) {inside rest : List BuildStep} (within : .newBlock ∉ inside)
    (ends : ∀ step ∈ rest.head?, step = .newBlock) (filled : b.newBlock.emitted inside ≠ []) :
    (b.assemble (.newBlock :: (inside ++ rest))).build.blocks[b.nextBlockIndex]? =
      some (b.newBlock.emitted inside) := by
  rw [assemble_cons, assemble_append, show b.take .newBlock = b.newBlock from rfl]
  obtain ⟨blocks, current⟩ := assemble_of_open b.newBlock within
  generalize b.newBlock.assemble inside = open_ at blocks current ⊢
  have place : open_.blocks.length = b.nextBlockIndex := by
    rw [blocks]
    simp [newBlock, nextBlockIndex]
  replace current : open_.current = b.newBlock.emitted inside := current.trans (List.nil_append _)
  rw [← current] at filled ⊢
  -- it is closed by the next block, or at the end
  have kept : open_.blocks ++ [open_.current] <+: (open_.assemble rest).build.blocks := by
    cases rest with
    | nil =>
      have closing : open_.build.blocks = open_.blocks ++ [open_.current] := by
        simp [build, newBlock, filled]
      exact closing ▸ List.prefix_rfl
    | cons step rest =>
      obtain rfl := ends step rfl
      exact (blocks_prefix_assemble (open_.take .newBlock) rest).trans (blocks_prefix_build _)
  obtain ⟨later, hlater⟩ := kept
  rw [← hlater, ← place]
  simp

end CodeBuilder

/-- What a code object and a signature tell of the parameters is what steps have told a builder. -/
structure CodeOver.LaidOut (code : Code) (steps : List BuildStep) : Prop where
  positional : code.positionalParams = steps.flatMap BuildStep.positional
  kwOnly : code.kwOnlyParams = steps.flatMap BuildStep.keywordOnly
  varArgs : code.varArgsName? = (steps.filterMap BuildStep.varArgs?).getLast?
  varKeywords : code.varKeywordsName? = (steps.filterMap BuildStep.varKeywords?).getLast?
  posOnly : code.posOnlyArgCount =
    min ((steps.filterMap BuildStep.posOnlyCount?).getLast?.getD 0) code.positionalParams.length

/-- A signature reads the layout of a code object. -/
structure Signature.ReadsLayout (signature : Signature) (code : Code) : Prop where
  params : signature.params = code.positionalParams
  kwOnly : signature.kwOnly = code.kwOnlyParams
  varArgs : signature.varArgs = code.varArgsName?
  varKeywords : signature.varKeywords = code.varKeywordsName?
  posOnly : signature.posOnlyCount = code.posOnlyArgCount

namespace CodeBuilder

theorem laidOut_build {b : CodeBuilder} {steps : List BuildStep} (h : HasLayout b steps) :
    b.build.LaidOut steps where
  positional := (positionalParams_build b).trans h.positional
  kwOnly := (kwOnlyParams_build b).trans h.kwOnly
  varArgs := (varArgsName?_build b).trans h.varArgs
  varKeywords := (varKeywordsName?_build b).trans h.varKeywords
  posOnly := by rw [positionalParams_build, ← h.posOnlyCount]; rfl

/-- Whatever steps a code object is built in, its parameters and those of its signature are the ones that
the steps have named, the last names for the variadic ones. Every instruction that a step adds is in one
block, in order, and a block that is opened lies where the builder announced it once it has an
instruction. -/
theorem build_layout (name : String) (steps : List BuildStep) :
    let code := ((new name).assemble steps).build
    code.LaidOut steps ∧
    (∀ defaults kwDefaults, (Signature.ofCode code defaults kwDefaults).ReadsLayout code) ∧
    (code.positionalParams.length + code.kwOnlyParams.length + 1 < twoTo 64 →
      code.checkLayout = .ok ()) ∧
    code.blocks.flatten = (new name).emitted steps ∧
    ∀ before inside rest, steps = before ++ .newBlock :: (inside ++ rest) → .newBlock ∉ inside →
      (∀ step ∈ rest.head?, step = .newBlock) →
      let opened := ((new name).assemble before).newBlock
      opened.emitted inside ≠ [] →
      code.blocks[((new name).assemble before).nextBlockIndex]? = some (opened.emitted inside) := by
  intro code
  have layout := laidOut_build (hasLayout_assemble name steps)
  refine ⟨layout, fun defaults kwDefaults => ⟨rfl, rfl, rfl, rfl, ?_⟩, fun few => ?_, ?_, ?_⟩
  · exact Nat.min_eq_left (layout.posOnly ▸ Nat.min_le_right ..)
  · rw [positionalParams_build, kwOnlyParams_build] at few
    exact CodeOver.checkLayout_eq_ok.mpr (sumsFit_build _ few)
  · rw [flatten_build, flatten_assemble]
    rfl
  · rintro before inside rest rfl within ends opened filled
    have there := getElem?_announced ((new name).assemble before) within ends filled
    rwa [← assemble_append] at there

/-- Steps in no particular order: parameters of every kind, one of them named twice, and two blocks. -/
def scatteredSteps : List BuildStep :=
  [.varKeywords "kw", .loadConst (.int 1), .kwOnly ["c"], .varArgs "rest", .newBlock, .newBlock,
    .params ["a"], .posOnly 3, .returnNone, .varArgs "args", .params ["b"]]

/-- The steps name four parameters and give the last name to the remaining positional arguments, and the
third block is the one that returns. -/
theorem scatteredSteps_layout :
    let code := ((new "f").assemble scatteredSteps).build
    code.LaidOut scatteredSteps ∧ code.checkLayout = .ok () ∧
      (code.positionalParams, code.kwOnlyParams, code.varArgsName?, code.varKeywordsName?,
        code.posOnlyArgCount) = (["a", "b"], ["c"], some "args", some "kw", 2) ∧
      code.blocks[2]? = some [⟨.loadConst 1, 1⟩, ⟨.returnValue, 1⟩] := by
  obtain ⟨layout, -, words, -, announced⟩ := build_layout "f" scatteredSteps
  refine ⟨layout, words (by decide), by decide, ?_⟩
  exact announced (scatteredSteps.take 5) (scatteredSteps.drop 6) [] rfl (by simp [scatteredSteps])
    nofun (by decide)

end CodeBuilder

end StubInference
