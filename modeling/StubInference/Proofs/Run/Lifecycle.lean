import StubInference.Proofs.Run.Exports
import StubInference.Proofs.Run.SafeStages

/-!
# The life of a machine

A machine is idle until it has run a module, has the definitions of the module analysed at most once,
and gives stubs whenever it is asked to. What a stage does to the record that a machine keeps of this is
said once, by the moves of the record; what holds of the record at any time follows from there.

## Main definitions

* `Machine.Progress.Moves` — what one stage makes of the record of a machine
* `Machine.Progress.Orderly` — the record fits the phase
* `Machine.Lifecycle` — what a machine answers to the next stage, and where it is then

## Main results

* `Stage.runWith_moves` — every stage is a move
* `Machine.session_lifecycle` — the rules hold after every session
-/

namespace StubInference

namespace Machine

open Step

namespace Progress

/-- What one stage makes of the record of a machine: nothing, or its module has run, or it has begun to
visit frames, with that of the module. -/
inductive Moves : Progress → Progress → Prop
  | stay (p : Progress) : Moves p p
  | run {p : Progress} (idle : p.phase = .idle) (known : Code × CodeSite) (module : FrameId) :
    Moves p { p with phase := .moduleRun, code := some known, moduleFrame := some module }
  | analyse {p : Progress} {module : FrameId} (ready : p.phase = .moduleRun)
    (frame : p.moduleFrame = some module) {phase : Phase}
    (begun : phase = .defAnalysis ∨ phase = .done) (rest : List FrameId) :
    Moves p { p.visit (module :: rest) with phase }

/-- The record of a machine fits its phase: an idle machine has neither code nor a module frame, any
other one has both, and the frames that have been visited begin with that of the module once the
analysis of definitions has begun. -/
structure Orderly (p : Progress) : Prop where
  code : p.phase = .idle ↔ p.code = none
  moduleFrame : p.phase = .idle ↔ p.moduleFrame = none
  unvisited : p.phase = .idle ∨ p.phase = .moduleRun → p.visited = []
  visited : p.phase = .defAnalysis ∨ p.phase = .done →
    ∃ module rest, p.moduleFrame = some module ∧ p.visited = module :: rest

variable {p p' : Progress}

theorem Moves.orderly (h : p.Moves p') (orderly : p.Orderly) : p'.Orderly := by
  cases h with
  | stay => exact orderly
  | run idle known module =>
    exact ⟨by simp, by simp, fun _ => orderly.unvisited (.inl idle), by simp⟩
  | @analyse module ready frame phase begun rest =>
    have code : p.code ≠ none := by simp [← orderly.code, ready]
    have first : p.visited ++ module :: rest = module :: rest := by
      rw [orderly.unvisited (.inr ready), List.nil_append]
    rcases begun with rfl | rfl <;>
      exact ⟨by simp [visit, code], by simp [visit, frame], by simp,
        fun _ => ⟨module, rest, frame, first⟩⟩

/-- No machine becomes idle again. -/
theorem Moves.phase_ne_idle (h : p.Moves p') (running : p.phase ≠ .idle) : p'.phase ≠ .idle := by
  cases h with
  | stay => exact running
  | run => exact nofun
  | analyse _ _ begun => rcases begun with rfl | rfl <;> exact nofun

@[simp]
theorem visit_nil (p : Progress) : p.visit [] = p := by simp [visit]

@[simp]
theorem visit_visit (p : Progress) (frames more : List FrameId) :
    (p.visit frames).visit more = p.visit (frames ++ more) := by simp [visit]

end Progress

variable (ev : Evaluator) {m : Machine}

/-! ## What the stages record -/

/-- A module is recorded once it has run to its end. -/
theorem progress_runModuleWith (code : Code) (idle : m.phase = .idle) :
    (runModuleWith ev code m).2.progress = match (runModuleWith ev code m).1 with
      | .ok id => { m.progress with
          phase := .moduleRun
          code := some (code, ⟨m.context.roots, []⟩)
          moduleFrame := some id }
      | .error _ => m.progress := by
  rw [runModuleWith_apply, if_neg (not_not.mpr idle)]
  rcases recordModule ev code ⟨m.context.roots, []⟩ { m.context with roots := m.context.roots + 1 }
    with ⟨_ | _, _⟩ <;> rfl

/-- Visits record frames and nothing else, the first of the queue before all others. -/
theorem exists_progress_visit (fuel : Nat) (queue : List FrameId) (seen : List ClassId) :
    ∃ frames, (visit ev fuel queue seen m).2.progress = m.progress.visit frames ∧
      (fuel ≠ 0 → frames.head? = queue.head?) := by
  induction fuel generalizing m queue seen with
  | zero => cases queue <;> exact ⟨[], m.progress.visit_nil.symm, fun h => absurd rfl h⟩
  | succ fuel ih =>
    cases queue with
    | nil => exact ⟨[], m.progress.visit_nil.symm, fun _ => rfl⟩
    | cons id queue =>
      have first : (visitFrame ev id seen m).2.progress = m.progress.visit [id] :=
        progress_visitFrame id seen m
      rw [visit, bind_apply]
      rcases hframe : visitFrame ev id seen m with ⟨fault | ⟨found, classes⟩, m'⟩ <;>
        rw [hframe] at first
      · exact ⟨[id], first, fun _ => rfl⟩
      · obtain ⟨frames, rest, -⟩ := ih (m := m') (queue ++ found) (seen ++ classes)
        exact ⟨id :: frames, by rw [rest, first, Progress.visit_visit]; rfl, fun _ => rfl⟩

/-- The analysis of definitions begins with the module, and it is done unless it ends in a fault. -/
theorem exists_progress_analyseDefinitionsWith {module : FrameId} (ready : m.phase = .moduleRun)
    (frame : m.moduleFrame = some module) :
    ∃ rest, (analyseDefinitionsWith ev m).2.progress =
      { m.progress.visit (module :: rest) with
        phase := match (analyseDefinitionsWith ev m).1 with
          | .ok _ => .done
          | .error _ => .defAnalysis } := by
  obtain ⟨frames, visited, first⟩ :=
    exists_progress_visit ev (m := { m with phase := .defAnalysis }) visitLimit [module] []
  obtain ⟨rest, rfl⟩ := List.head?_eq_some_iff.mp (first (by decide))
  refine ⟨rest, ?_⟩
  rw [analyseDefinitionsWith, analyseDefinitionsWithin_apply ready frame]
  rcases run : visit ev visitLimit [module] [] { m with phase := .defAnalysis }
    with ⟨fault | done, m'⟩ <;> rw [run] at visited
  · exact visited
  · exact congrArg (fun p : Progress => { p with phase := .done }) visited

/-- A stub changes nothing that is recorded. -/
theorem progress_inferStubWith : (inferStubWith ev m).2.progress = m.progress := by
  obtain ⟨context, phase, known, moduleFrame, visited⟩ := m
  rw [inferStubWith_apply]
  cases known with
  | none => rfl
  | some known =>
    dsimp only
    rcases (do (← Frame.forModule known.1 known.2).runToEnd ev : Analysis Frame) context
      with ⟨_ | frame, ctx⟩
    · rfl
    · dsimp only
      rcases definitionsOf ev frame.finalLocals ctx with ⟨_ | _, _⟩ <;> rfl

end Machine

/-! ## Moves -/

namespace Stage

open Machine Step

variable {ev : Evaluator} {m : Machine}

/-- Every stage is a move. -/
theorem runWith_moves (stage : Stage) : m.progress.Moves (stage.runWith ev m).2.progress := by
  cases refused : stage.refusal? m with
  | some fault =>
    rw [runWith_refused refused]
    exact .stay _
  | none =>
    cases stage <;> simp only [refusal?] at refused <;> split at refused <;> cases refused
    case none.runModule code idle =>
      have recorded := progress_runModuleWith ev code idle
      rw [runWith, bind_apply]
      rcases run : runModuleWith ev code m with ⟨fault | id, m'⟩ <;> rw [run] at recorded
      · exact recorded ▸ .stay _
      · exact recorded ▸ .run idle _ id
    case none.analyseDefinitions ready =>
      obtain ⟨module, frame⟩ := Option.isSome_iff_exists.mp ready.2
      obtain ⟨rest, recorded⟩ := exists_progress_analyseDefinitionsWith ev ready.1 frame
      rw [runWith, recorded]
      refine .analyse ready.1 frame ?_ rest
      cases (analyseDefinitionsWith ev m).1 with
      | ok => exact .inr rfl
      | error => exact .inl rfl
    case none.inferStub known =>
      have recorded := progress_inferStubWith ev (m := m)
      rw [runWith, bind_apply]
      rcases run : inferStubWith ev m with ⟨fault | unit, m'⟩ <;> rw [run] at recorded <;>
        exact recorded ▸ .stay _

end Stage

namespace Machine

variable {ev : Evaluator} {m : Machine}

/-- The record of a machine fits its phase after every session. -/
theorem session_orderly (stages : List Stage) (h : m.progress.Orderly) :
    (session ev stages m).2.progress.Orderly := by
  induction stages generalizing m with
  | nil => exact h
  | cons stage rest ih => exact ih (stage.runWith_moves.orderly h)

/-- A machine is idle after no session if it has run a module before. -/
theorem session_phase_ne_idle (stages : List Stage) (h : m.phase ≠ .idle) :
    (session ev stages m).2.phase ≠ .idle := by
  induction stages generalizing m with
  | nil => exact h
  | cons stage rest ih => exact ih (stage.runWith_moves.phase_ne_idle h)

/-! ## The rules of a machine -/

/-- What a machine answers to the next stage, and where it is then. -/
structure Lifecycle (ev : Evaluator) (m : Machine) : Prop where
  orderly : m.progress.Orderly
  /-- An idle machine takes a module. It records the module once that has run, and stays as it was where
  the run ends in a fault. -/
  takes : m.phase = .idle → ∀ code,
    (∃ id m' site, runModuleWith ev code m = (.ok id, m') ∧
      m'.progress = ⟨.moduleRun, some (code, site), some id, []⟩) ∨
    ∃ fault m', runModuleWith ev code m = (.error fault, m') ∧ fault.isUntimely = false ∧
      m'.progress = m.progress
  /-- Any other machine refuses a module. -/
  refuses : m.phase ≠ .idle → ∀ code,
    runModuleWith ev code m = (.error (.inconsistent (.moduleHasRun m.phase)), m)
  /-- After a module has run no other one is taken, whatever happens in between. -/
  once : ∀ code id m', runModuleWith ev code m = (.ok id, m') → ∀ stages other,
    let later := (session ev stages m').2
    runModuleWith ev other later = (.error (.inconsistent (.moduleHasRun later.phase)), later)
  /-- The definitions of a module that has run are analysed. -/
  analyses : m.phase = .moduleRun →
    (∃ m' visited, analyseDefinitionsWith ev m = (.ok (), m') ∧
      m'.progress = { m.progress with phase := .done, visited }) ∨
    ∃ fault m' visited, analyseDefinitionsWith ev m = (.error fault, m') ∧
      fault.isUntimely = false ∧ m'.progress = { m.progress with phase := .defAnalysis, visited }
  /-- At any other time they are not. -/
  waits : m.phase ≠ .moduleRun →
    analyseDefinitionsWith ev m = (.error (.inconsistent (.cannotAnalyse m.phase)), m)
  /-- A stub may be asked for at any time. -/
  shows : (inferStubWith ev m).2.progress = m.progress

theorem lifecycle_of_orderly (hev : ev.Safe) (hm : m.Filled) (orderly : m.progress.Orderly) :
    m.Lifecycle ev where
  orderly := orderly
  takes idle code := by
    have recorded := progress_runModuleWith ev code idle
    have faults := (runModuleWith_leads hev hm idle code).faults
    rcases run : runModuleWith ev code m with ⟨fault | id, m'⟩ <;> rw [run] at recorded faults
    · exact .inr ⟨fault, m', rfl, (Bool.or_eq_false_iff.mp (faults fault rfl)).2, recorded⟩
    · have none : m.progress.visited = [] := orderly.unvisited (.inl idle)
      exact .inl ⟨id, m', _, rfl, recorded.trans (congrArg (Progress.mk _ _ _) none)⟩
  refuses running code := runModuleWith_refused running code
  once code id m' run stages other := by
    refine runModuleWith_refused (session_phase_ne_idle stages ?_) other
    rw [(runModuleWith_ready run).1]
    exact nofun
  analyses ready := by
    have known : m.moduleFrame ≠ none := fun none =>
      absurd (ready.symm.trans (orderly.moduleFrame.mpr none)) nofun
    obtain ⟨module, frame⟩ := Option.ne_none_iff_exists'.mp known
    obtain ⟨rest, recorded⟩ := exists_progress_analyseDefinitionsWith ev ready frame
    have faults := (analyseDefinitionsWith_leads hev hm ready frame).faults
    rcases run : analyseDefinitionsWith ev m with ⟨fault | done, m'⟩ <;>
      rw [run] at recorded faults
    · exact .inr ⟨fault, m', _, rfl, (Bool.or_eq_false_iff.mp (faults fault rfl)).2, recorded⟩
    · exact .inl ⟨m', _, rfl, recorded⟩
  waits untimely := analyseDefinitionsWith_refused fun _ ready => absurd ready untimely
  shows := progress_inferStubWith ev

/-- After every session of a new machine, with whatever code and whatever its stages have ended in, the
machine keeps to the rules. -/
theorem session_lifecycle (options : Options) (depth : Nat) (stages : List Stage) :
    (session (.atDepth depth) stages (.new options)).2.Lifecycle (.atDepth depth) := by
  have hev := Evaluator.atDepth_safe depth
  refine lifecycle_of_orderly hev (session_filled hev stages (filled_new options)) ?_
  exact session_orderly stages ⟨by simp [progress, new], by simp [progress, new], fun _ => rfl,
    by simp [progress, new]⟩

end Machine

end StubInference
