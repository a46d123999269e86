import StubInference.Proofs.Frame.Depth

/-!
# The outline of a run

Which blocks a frame executes, and how deep its stack is before each instruction, depends on its
code only: both can be found by going through the blocks once with depths in place of stacks.

## Main definitions

* `Moment` — a block that is entered or an instruction that is executed, with the depth there
* `Frame.trace` — the moments of a run
* `CodeOver.outline?`, `CodeOver.StackConsistent` — the moments that depths alone foretell

## Main results

* `FrameStep.traceAll_forget` — a run is its trace with the moments forgotten
* `foretellBlocks_extends` — going through blocks adds depths of later blocks only
-/

namespace StubInference

open Step FrameStep

/-! ## Moments of a run -/

/-- Something that a run does, with the depth of the stack before it. -/
inductive Moment where
  | enters (block depth : Nat)
  | executes (block : Nat) (instruction : Instruction) (depth : Nat)
  deriving DecidableEq

namespace FrameStep

/-- Run instructions of a block until one ends the path, and tell what was executed. -/
def traceInstructions (ev : Evaluator) (index : Nat) :
    List Instruction → FrameStep (List Moment × Flow)
  | [] => pure ([], .next)
  | instruction :: rest => do
    modifyFrame fun frame => { frame with line := instruction.line }
    syncPosition
    let moment := Moment.executes index instruction (← fromFrame (·.state.stack.length))
    match ← execute ev instruction.opcode with
    | .stop => pure ([moment], .stop)
    | .next => do
      let (moments, flow) ← traceInstructions ev index rest
      pure (moment :: moments, flow)

/-- Run one block, if an edge has reached it, and tell what happened. -/
def traceBlock (ev : Evaluator) (index : Nat) (block : Block) (isLast : Bool) :
    FrameStep (List Moment) := do
  match ← takePending index with
  | none => pure []
  | some state =>
    modifyFrame fun frame => { frame with block := index, state }
    let (moments, flow) ← traceInstructions ev index block
    if flow = .next ∧ !isLast then jump (index + 1)
    pure (.enters index state.stack.length :: moments)

/-- Run blocks in order and tell what happened. -/
def traceBlocks (ev : Evaluator) (index : Nat) : List Block → FrameStep (List Moment)
  | [] => pure []
  | block :: rest => do
    let moments ← traceBlock ev index block rest.isEmpty
    let more ← traceBlocks ev (index + 1) rest
    pure (moments ++ more)

/-- Run a whole frame and tell what happened. -/
def traceAll (ev : Evaluator) : FrameStep (List Moment) := do
  let frame := (← get).frame
  if frame.finished then throw (.inconsistent (.frameHasRun frame.name))
  modifyFrame fun frame => { frame with pending := startPending frame }
  let moments ← traceBlocks ev 0 frame.code.blocks
  modifyFrame fun frame => { frame with finished := true }
  pure moments

variable {ev : Evaluator}

section Forgetting

variable {α α' β β' : Type} {m : FrameStep α} {n : FrameStep α'} {k : α → FrameStep β}
  {l : α' → FrameStep β'} {f : α → α'} {g : β → β'}

/-- Sequences answer the same where their parts do, up to what is forgotten of the answers. -/
theorem map_bind_of (first : f <$> m = n) (second : ∀ a, g <$> k a = l (f a)) :
    g <$> (m >>= k) = n >>= l := by
  rw [map_bind, ← first, bind_map_left]
  exact bind_congr second

theorem map_bind_same {l : α → FrameStep β'} (second : ∀ a, g <$> k a = l a) :
    g <$> (m >>= k) = m >>= l := by
  rw [map_bind]
  exact bind_congr second

theorem map_bind_last {n : FrameStep β'} {f : α → β'} (first : f <$> m = n)
    (second : ∀ a, g <$> k a = pure (f a)) : g <$> (m >>= k) = n := by
  rw [← first, map_bind, map_eq_pure_bind]
  exact bind_congr second

end Forgetting

theorem traceInstructions_forget (index : Nat) (instructions : List Instruction) :
    Prod.snd <$> traceInstructions ev index instructions = runInstructions ev instructions := by
  induction instructions with
  | nil => rfl
  | cons instruction rest ih =>
    -- a run does not read the depth
    have unread (n : FrameStep Flow) : (fromFrame (·.state.stack.length) >>= fun _ => n) = n := rfl
    refine map_bind_same fun _ => map_bind_same fun _ => (map_bind_same fun depth => ?_).trans (unread _)
    refine map_bind_same fun flow => ?_
    cases flow with
    | stop => exact map_pure _ _
    | next => exact map_bind_last ih fun _ => map_pure _ _

theorem traceBlock_forget (index : Nat) (block : Block) (isLast : Bool) :
    (fun _ => ()) <$> traceBlock ev index block isLast = runBlock ev index block isLast := by
  refine map_bind_same fun found => ?_
  cases found with
  | none => exact map_pure _ _
  | some state =>
    refine map_bind_same fun _ => map_bind_of (traceInstructions_forget index block) fun answer => ?_
    dsimp only
    split
    · exact map_bind_last (id_map _) fun _ => map_pure _ _
    · exact map_pure _ _

theorem traceBlocks_forget (index : Nat) (blocks : List Block) :
    (fun _ => ()) <$> traceBlocks ev index blocks = runBlocks ev index blocks := by
  induction blocks generalizing index with
  | nil => rfl
  | cons block rest ih =>
    refine map_bind_of (traceBlock_forget index block rest.isEmpty) fun moments => ?_
    exact map_bind_last (ih (index + 1)) fun more => map_pure _ _

/-- A run is its trace with the moments forgotten. -/
theorem traceAll_forget : (fun _ => ()) <$> traceAll ev = runAll ev := by
  refine map_bind_same fun s => ?_
  by_cases finished : s.frame.finished = true
  · simp only [finished, if_true]
    rfl
  · simp only [finished]
    refine map_bind_same fun _ => map_bind_of (traceBlocks_forget _ _) fun moments => ?_
    exact map_bind_last (id_map _) fun _ => map_pure _ _

end FrameStep

/-- The moments of the run of a frame, or the fault that it ends in. -/
def Frame.trace (ev : Evaluator) (frame : Frame) (ctx : Context) : Except Fault (List Moment) :=
  (traceAll ev ⟨frame, ctx⟩).1

/-! ## Moments that depths foretell -/

/-- The depth of the stack where each block is entered, as far as it is known. -/
abbrev Depths := Nat → Option Nat

/-- The table with the depth of one more block. -/
def Depths.put (depths : Depths) (target depth : Nat) : Depths :=
  fun block => if block = target then some depth else depths block

/-- An edge of a code object with so many blocks, from one block to another. A block has one entry
depth, and edges that do not lead forward to a block are not followed. -/
def Depths.follow (depths : Depths) (blocks index target depth : Nat) : Option Depths :=
  if index < target ∧ target < blocks then
    if (depths target).all (· == depth) then some (depths.put target depth) else none
  else some depths

/-- The edge of an instruction, if it has one. -/
def Depths.leap (depths : Depths) (blocks index : Nat) (op : Opcode) (depth : Nat) :
    Option Depths :=
  match op.jumpTarget? with
  | some target => depths.follow blocks index target depth
  | none => some depths

/-- What is foretold of a part of a block: its moments, the depths that are known then, and the depth
behind it if the path does not end. -/
structure Foretold where
  moments : List Moment
  depths : Depths
  behind : Option Nat

/-- Go through instructions of a block from a given depth. The use of each has to be fixed and the
stack deep enough. -/
def foretellInstructions (blocks index : Nat) :
    List Instruction → (depth : Nat) → Depths → Option Foretold
  | [], depth, depths => some ⟨[], depths, some depth⟩
  | instruction :: rest, depth, depths => do
    let use ← instruction.opcode.stackUse?.filter (·.least ≤ depth)
    let depths ← depths.leap blocks index instruction.opcode (depth - use.taken)
    let moment := Moment.executes index instruction depth
    match flowAfter instruction.opcode with
    | .stop => some ⟨[moment], depths, none⟩
    | .next => do
      let ⟨moments, depths, behind⟩ ←
        foretellInstructions blocks index rest (depth - use.taken + use.put) depths
      some ⟨moment :: moments, depths, behind⟩

/-- The edge from the end of a block into the next one, if the path gets there. -/
def Depths.fall (depths : Depths) (blocks index : Nat) : Option Nat → Option Depths
  | some depth => depths.follow blocks index (index + 1) depth
  | none => some depths

/-- Go through blocks in order, passing over those that nothing has reached. -/
def foretellBlocks (blocks index : Nat) : List Block → Depths → Option (List Moment × Depths)
  | [], depths => some ([], depths)
  | block :: rest, depths =>
    match depths index with
    | none => foretellBlocks blocks (index + 1) rest depths
    | some depth => do
      let ⟨moments, depths, behind⟩ ← foretellInstructions blocks index block depth depths
      let depths ← depths.fall blocks index behind
      let (more, depths) ← foretellBlocks blocks (index + 1) rest depths
      some (.enters index depth :: moments ++ more, depths)

/-- The first block is entered with an empty stack. -/
def Depths.start : Depths := fun block => if block = 0 then some 0 else none

/-- The moments that depths foretell for a code object, and the entry depths of its blocks. -/
def CodeOver.outline? (code : Code) : Option (List Moment × Depths) :=
  foretellBlocks code.blocks.length 0 code.blocks .start

/-- The use of the stack is fixed for every instruction that can be reached, the stack is deep
enough for it, and every block has one entry depth. -/
def CodeOver.StackConsistent (code : Code) : Prop := code.outline?.isSome

instance (code : Code) : Decidable code.StackConsistent := inferInstanceAs (Decidable (_ = true))

/-! ## Tables of depths -/

/-- A table with the entries of another one, and no new ones up to a block. -/
structure Depths.Extends (depths : Depths) (index : Nat) (more : Depths) : Prop where
  within : ∀ block, ∀ depth ∈ depths block, more block = some depth
  upTo : ∀ block ≤ index, more block = depths block

namespace Depths

variable {depths more table : Depths} {blocks index target depth : Nat}

theorem Extends.refl (depths : Depths) (index : Nat) : depths.Extends index depths :=
  ⟨fun _ _ h => h, fun _ _ => rfl⟩

theorem Extends.trans {index' : Nat} (h : depths.Extends index more) (h' : more.Extends index' table)
    (later : index ≤ index') : depths.Extends index table where
  within block depth hd := h'.within block depth (h.within block depth hd)
  upTo block hblock := (h'.upTo block (Nat.le_trans hblock later)).trans (h.upTo block hblock)

/-- An edge that is followed gives its target a depth that agrees with the one known before. -/
theorem follow_eq_some : depths.follow blocks index target depth = some more ↔
    ((index < target ∧ target < blocks) ∧ (∀ known ∈ depths target, known = depth) ∧
      more = depths.put target depth) ∨ (¬ (index < target ∧ target < blocks) ∧ more = depths) := by
  unfold follow
  split
  case isTrue forward =>
    cases depths target <;> simp [forward, @eq_comm _ more]
  case isFalse backward => simp [backward, @eq_comm _ more]

theorem follow_extends (h : depths.follow blocks index target depth = some more) :
    depths.Extends index more := by
  rcases follow_eq_some.mp h with ⟨forward, agrees, rfl⟩ | ⟨-, rfl⟩
  · constructor
    · intro block known hknown
      unfold put
      split
      case isTrue e => rw [agrees known (e ▸ hknown)]
      case isFalse => exact hknown
    · intro block hblock
      exact if_neg (by omega)
  · exact .refl _ _

theorem leap_extends {op : Opcode} (h : depths.leap blocks index op depth = some more) :
    depths.Extends index more := by
  unfold leap at h
  split at h
  · exact follow_extends h
  · obtain rfl := Option.some.inj h
    exact .refl _ _

theorem fall_extends {behind : Option Nat} (h : depths.fall blocks index behind = some more) :
    depths.Extends index more := by
  cases behind with
  | some depth => exact follow_extends h
  | none =>
    obtain rfl := Option.some.inj h
    exact .refl _ _

end Depths

section Foretelling

variable {blocks index depth : Nat} {depths : Depths} {foretold : Foretold}

theorem foretellInstructions_cons {instruction : Instruction} {rest : List Instruction} :
    foretellInstructions blocks index (instruction :: rest) depth depths = some foretold ↔
      ∃ use more, instruction.opcode.stackUse? = some use ∧ use.least ≤ depth ∧
        depths.leap blocks index instruction.opcode (depth - use.taken) = some more ∧
        ((flowAfter instruction.opcode = .stop ∧
            foretold = ⟨[.executes index instruction depth], more, none⟩) ∨
          (flowAfter instruction.opcode = .next ∧ ∃ behind,
            foretellInstructions blocks index rest (depth - use.taken + use.put) more =
              some behind ∧
            foretold = ⟨.executes index instruction depth :: behind.moments, behind.depths,
              behind.behind⟩)) := by
  rw [foretellInstructions]
  cases flowAfter instruction.opcode <;>
    simp [Option.bind_eq_some_iff, Option.filter_eq_some_iff, @eq_comm _ foretold, and_assoc]

theorem foretellInstructions_extends {instructions : List Instruction}
    (h : foretellInstructions blocks index instructions depth depths = some foretold) :
    depths.Extends index foretold.depths := by
  induction instructions generalizing depth depths foretold with
  | nil =>
    cases h
    exact .refl _ _
  | cons instruction rest ih =>
    obtain ⟨use, more, -, -, leap, ⟨-, rfl⟩ | ⟨-, behind, hbehind, rfl⟩⟩ :=
      foretellInstructions_cons.mp h
    · exact Depths.leap_extends leap
    · have tail : more.Extends index behind.depths := ih hbehind
      exact (Depths.leap_extends leap).trans tail (Nat.le_refl index)

theorem foretellBlocks_reached {block : Block} {rest : List Block} {moments : List Moment}
    {table : Depths} (reached : depths index = some depth) :
    foretellBlocks blocks index (block :: rest) depths = some (moments, table) ↔
      ∃ foretold fallen more, foretellInstructions blocks index block depth depths = some foretold ∧
        foretold.depths.fall blocks index foretold.behind = some fallen ∧
        foretellBlocks blocks (index + 1) rest fallen = some (more, table) ∧
        moments = .enters index depth :: foretold.moments ++ more := by
  rw [foretellBlocks, reached]
  simp [Option.bind_eq_some_iff, @eq_comm _ moments]

theorem foretellBlocks_extends {rest : List Block} {moments : List Moment} {table : Depths}
    (h : foretellBlocks blocks index rest depths = some (moments, table)) :
    depths.Extends index table := by
  induction rest generalizing index depths moments with
  | nil =>
    cases h
    exact .refl _ _
  | cons block rest ih =>
    cases reached : depths index with
    | none =>
      rw [foretellBlocks, reached] at h
      have tail := ih h
      exact ⟨tail.within, fun other hother => tail.upTo other (Nat.le_succ_of_le hother)⟩
    | some depth =>
      obtain ⟨foretold, fallen, more, hforetold, hfallen, hmore, -⟩ :=
        (foretellBlocks_reached reached).mp h
      have inside := foretellInstructions_extends hforetold
      exact (inside.trans (Depths.fall_extends hfallen) (Nat.le_refl _)).trans (ih hmore)
        (Nat.le_succ index)

end Foretelling

end StubInference
