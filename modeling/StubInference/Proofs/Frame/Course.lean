import Mathlib.Logic.Relation
import StubInference.Proofs.Frame.Steps

/-!
# The course of a run

A frame executes its blocks in order, each at most once, so a run is a list of visits: which
instruction was executed where, and how things stood before and after it. The order of the visits is
that of the blocks. Paths through the code are a matter of its edges, whatever the order.

## Main definitions

* `Place`, `Visit` — a place in the code, and an instruction that was executed there
* `Course` — the visits from one point of a run to its end
* `Frame.VisitedAs` — the visits of the run of a whole frame
* `Place.Edge`, `Place.Reaches`, `Place.Returns` — paths through the code along which a name is not
  bound

## Main results

* `course_of_runBlocks` — a run that succeeds has a course
* `Course.performed` — its visits are of instructions that were executed
* `Frame.exists_visits` — a frame that runs to its end has visits
-/

namespace StubInference

open FrameStep

/-! ## Visits -/

/-- A place in the code: a block, and what remains of it. -/
structure Place where
  block : Nat
  rest : List Instruction

/-- An instruction that was executed, with the execution before and after it. -/
structure Visit where
  block : Nat
  instruction : Instruction
  rest : List Instruction
  before : Execution
  after : Execution

/-- The place of the instruction. -/
def Visit.place (visit : Visit) : Place := ⟨visit.block, visit.instruction :: visit.rest⟩

/-- The place behind the instruction. -/
def Visit.behind (visit : Visit) : Place := ⟨visit.block, visit.rest⟩

/-- A point of a run: somewhere in a block, or where a block is about to be entered. -/
inductive Point where
  | inside (place : Place)
  | before (block : Nat)

/-- The visits of a run from a point on, and the execution that it ends in. -/
inductive Course (ev : Evaluator) (blocks : List Block) :
    Point → Execution → List Visit → Execution → Prop
  | done {index : Nat} {s : Execution} (past : blocks.length ≤ index) :
      Course ev blocks (.before index) s [] s
  | skip {index : Nat} {s t : Execution} {visits : List Visit} (within : index < blocks.length)
      (missing : s.frame.pending.find? (·.1 == index) = none)
      (more : Course ev blocks (.before (index + 1)) s visits t) :
      Course ev blocks (.before index) s visits t
  | enter {index : Nat} {s t : Execution} {visits : List Visit} {block : Block}
      {entry : Nat × BlockState} (found : blocks[index]? = some block)
      (known : s.frame.pending.find? (·.1 == index) = some entry)
      (more : Course ev blocks (.inside ⟨index, block⟩) (s.atBlock index entry.2) visits t) :
      Course ev blocks (.before index) s visits t
  | next {index : Nat} {s t u : Execution} {visits : List Visit} {instruction : Instruction}
      {rest : List Instruction}
      (performed : perform ev instruction.opcode (s.atLine instruction.line) = (.ok (), u))
      (flow : flowAfter instruction.opcode = .next)
      (more : Course ev blocks (.inside ⟨index, rest⟩) u visits t) :
      Course ev blocks (.inside ⟨index, instruction :: rest⟩) s
        (⟨index, instruction, rest, s.atLine instruction.line, u⟩ :: visits) t
  | stop {index : Nat} {s t u : Execution} {visits : List Visit} {instruction : Instruction}
      {rest : List Instruction}
      (performed : perform ev instruction.opcode (s.atLine instruction.line) = (.ok (), u))
      (flow : flowAfter instruction.opcode = .stop)
      (more : Course ev blocks (.before (index + 1)) u visits t) :
      Course ev blocks (.inside ⟨index, instruction :: rest⟩) s
        (⟨index, instruction, rest, s.atLine instruction.line, u⟩ :: visits) t
  | fall {index : Nat} {s t u : Execution} {visits : List Visit}
      (within : index + 1 < blocks.length) (jumped : jump (index + 1) s = (.ok (), u))
      (more : Course ev blocks (.before (index + 1)) u visits t) :
      Course ev blocks (.inside ⟨index, []⟩) s visits t
  | last {index : Nat} {s t : Execution} {visits : List Visit} (past : blocks.length ≤ index + 1)
      (more : Course ev blocks (.before (index + 1)) s visits t) :
      Course ev blocks (.inside ⟨index, []⟩) s visits t

section Courses

variable {ev : Evaluator} {blocks : List Block} {index : Nat} {rest : List Instruction}
  {s t : Execution}

/-- What remains of a block, given the courses of the blocks behind it. -/
theorem course_of_finishFrom
    (behind : ∀ u, runBlocks ev (index + 1) (blocks.drop (index + 1)) u = (.ok (), t) →
      ∃ visits, Course ev blocks (.before (index + 1)) u visits t)
    (ht : finishFrom ev blocks index rest s = (.ok (), t)) :
    ∃ visits, Course ev blocks (.inside ⟨index, rest⟩) s visits t := by
  induction rest generalizing s with
  | nil =>
    obtain ⟨flow, u, v, hu, hv, ht⟩ := finishFrom_eq_ok.mp ht
    cases hu
    obtain ⟨visits, more⟩ := behind v ht
    rcases hv with ⟨-, within, jumped⟩ | ⟨past, rfl⟩
    · exact ⟨visits, .fall within jumped more⟩
    · exact ⟨visits, .last (by simpa using past) more⟩
  | cons instruction rest ih =>
    obtain ⟨u, performed, h⟩ := finishFrom_cons ht
    rcases h with ⟨flow, hu⟩ | ⟨flow, hu⟩
    · obtain ⟨visits, more⟩ := behind u hu
      exact ⟨_, .stop performed flow more⟩
    · obtain ⟨visits, more⟩ := ih hu
      exact ⟨_, .next performed flow more⟩

/-- A run that succeeds has a course. -/
theorem course_of_runBlocks (ht : runBlocks ev index (blocks.drop index) s = (.ok (), t)) :
    ∃ visits, Course ev blocks (.before index) s visits t := by
  -- on the number of blocks that remain, since a block hands over to the next one in any case
  induction hk : blocks.length - index generalizing index s with
  | zero =>
    rw [List.drop_eq_nil_of_le (by omega)] at ht
    cases ht
    exact ⟨[], .done (by omega)⟩
  | succ k ih =>
    have found : blocks[index]? = some blocks[index] := List.getElem?_eq_getElem (by omega)
    have behind : ∀ u, runBlocks ev (index + 1) (blocks.drop (index + 1)) u = (.ok (), t) →
        ∃ visits, Course ev blocks (.before (index + 1)) u visits t :=
      fun u hu => ih hu (by omega)
    rw [runBlocks_drop found] at ht
    cases known : s.frame.pending.find? (·.1 == index) with
    | none =>
      rw [known] at ht
      obtain ⟨visits, more⟩ := behind s ht
      exact ⟨visits, .skip (by omega) known more⟩
    | some entry =>
      rw [known] at ht
      obtain ⟨visits, more⟩ := course_of_finishFrom behind ht
      exact ⟨visits, .enter found known more⟩

/-- Every visit is of an instruction that was executed there. -/
theorem Course.performed {point : Point} {visits : List Visit}
    (course : Course ev blocks point s visits t) {visit : Visit} (visited : visit ∈ visits) :
    perform ev visit.instruction.opcode visit.before = (.ok (), visit.after) := by
  induction course with
  | done => cases visited
  | skip _ _ _ ih | enter _ _ _ ih | fall _ _ _ ih | last _ _ ih => exact ih visited
  | next performed _ _ ih | stop performed _ _ ih =>
    rcases List.mem_cons.mp visited with rfl | visited
    · exact performed
    · exact ih visited

/-- The execution that the blocks of a frame start with. -/
def Frame.entering (start : Frame) (ctx : Context) : Execution :=
  ⟨{ start with pending := startPending start }, ctx⟩

/-- The visits of the run of a frame, in the order of the run. -/
def Frame.VisitedAs (ev : Evaluator) (start : Frame) (ctx : Context) (visits : List Visit)
    (done : Frame) (ctx' : Context) : Prop :=
  ∃ last, Course ev start.code.blocks (.before 0) (start.entering ctx) visits ⟨last, ctx'⟩ ∧
    done = { last with finished := true }

/-- A frame that runs to its end has visits. -/
theorem Frame.exists_visits {start done : Frame} {ctx ctx' : Context}
    (run : start.runToEnd ev ctx = (.ok done, ctx')) :
    ∃ visits, start.VisitedAs ev ctx visits done ctx' := by
  obtain ⟨-, t, hrun, hdone⟩ := FrameStep.runAll_eq_ok.mp (Frame.runToEnd_eq_ok.mp run)
  obtain ⟨visits, course⟩ := course_of_runBlocks hrun
  cases hdone
  exact ⟨visits, t.frame, course, rfl⟩

end Courses

/-! ## Paths -/

namespace Place

variable {blocks : List Block} {passes : Opcode → Prop} {place : Place}

/-- A step of a path: past an instruction, along a jump that leads forward, or from the end of a
block into the next one. -/
inductive Edge (blocks : List Block) (passes : Opcode → Prop) : Place → Place → Prop
  | next {index : Nat} {instruction : Instruction} {rest : List Instruction}
      (flow : flowAfter instruction.opcode = .next) (passed : passes instruction.opcode) :
      Edge blocks passes ⟨index, instruction :: rest⟩ ⟨index, rest⟩
  | leap {index target : Nat} {instruction : Instruction} {rest : List Instruction} {block : Block}
      (jumps : instruction.opcode.jumpTarget? = some target) (forward : index < target)
      (found : blocks[target]? = some block) :
      Edge blocks passes ⟨index, instruction :: rest⟩ ⟨target, block⟩
  | fall {index : Nat} {block : Block} (found : blocks[index + 1]? = some block) :
      Edge blocks passes ⟨index, []⟩ ⟨index + 1, block⟩

/-- There is a path from one place to another along instructions that pass. -/
def Reaches (blocks : List Block) (passes : Opcode → Prop) : Place → Place → Prop :=
  Relation.ReflTransGen (Edge blocks passes)

/-- The next instruction returns. -/
def AtReturn (place : Place) : Prop :=
  ∃ instruction rest, place.rest = instruction :: rest ∧ instruction.opcode = .returnValue

/-- There is a path from a place to a return along instructions that pass. -/
def Returns (blocks : List Block) (passes : Opcode → Prop) (place : Place) : Prop :=
  ∃ last, place.Reaches blocks passes last ∧ last.AtReturn

theorem Returns.along {next : Place} (edge : place.Edge blocks passes next)
    (h : next.Returns blocks passes) : place.Returns blocks passes :=
  h.imp fun _ h => ⟨.head edge h.1, h.2⟩

/-- A path to a return is over or has a first step. -/
theorem returns_iff : place.Returns blocks passes ↔
    place.AtReturn ∨ ∃ next, place.Edge blocks passes next ∧ next.Returns blocks passes := by
  constructor
  · rintro ⟨last, path, atReturn⟩
    rcases Relation.ReflTransGen.cases_head path with rfl | ⟨next, edge, more⟩
    · exact .inl atReturn
    · exact .inr ⟨next, edge, last, more, atReturn⟩
  · rintro (atReturn | ⟨next, edge, h⟩)
    · exact ⟨place, .refl, atReturn⟩
    · exact h.along edge

end Place

end StubInference
