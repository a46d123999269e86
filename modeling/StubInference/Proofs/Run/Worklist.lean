import Mathlib.Algebra.BigOperators.Group.Finset.Basic
import Mathlib.Algebra.Order.BigOperators.Group.Finset
import StubInference.Proofs.Run.Nesting

/-!
# The worklist of definitions

The analysis of definitions visits frames in turn, and the frames that a visit makes wait behind the
others. Classes are analysed once, but functions are analysed again whenever a frame has made them
again, so nothing keeps the worklist from growing for ever: the frames of one code object may find
ever new frames of the same code object.

This is the only way in which it can happen. The lineage of a frame is the code of the frames that it
was found through. There are only as many code objects as the module holds, so where no code object
comes up in a lineage more than so many times, lineages are of bounded length and the worklist drains.

## Main definitions

* `Worklist`, `Worklist.visit` — the worklist with the lineages of its frames, and one visit
* `Machine.Progress`, `Machine.progress` — what a machine records besides the state of the analysis
* `Machine.Drains` — the analysis of definitions ends by itself
* `Worklist.Recurs` — how often a code object comes up in a lineage

## Main results

* `Machine.drains_iff` — the worklist drains just where lineages repeat a code object so many times
  at most
-/

namespace StubInference

open Step

/-! ## Visits -/

/-- A frame that waits for its visit, and the code of the frames that it was found through: its own
first, that of the module last. -/
structure Waiting where
  frame : FrameId
  lineage : List Code

/-- The worklist in the course of an analysis. -/
structure Worklist where
  machine : Machine
  queue : List Waiting
  seen : List ClassId

namespace Worklist

/-- The code of the frame at a position. -/
def codeAt (machine : Machine) (id : FrameId) : Code := (machine.context.heap.frameAt id).code

/-- Visit the frame in front. The frames found there have its lineage behind their own code. -/
def visit (ev : Evaluator) (work : Worklist) : Except Fault Worklist :=
  match work.queue with
  | [] => .ok work
  | next :: rest =>
    match Machine.visitFrame ev next.frame work.seen work.machine with
    | (.error fault, _) => .error fault
    | (.ok (found, classes), machine) =>
      let waiting := found.map fun id => ⟨id, codeAt machine id :: next.lineage⟩
      .ok ⟨machine, rest ++ waiting, work.seen ++ classes⟩

/-- The worklist after so many visits. -/
def after (ev : Evaluator) : (visits : Nat) → Worklist → Except Fault Worklist
  | 0, work => .ok work
  | visits + 1, work => do after ev visits (← work.visit ev)

/-- The worklist that the analysis of definitions starts with. -/
def start (machine : Machine) (module : FrameId) : Worklist :=
  ⟨{ machine with phase := .defAnalysis }, [⟨module, [codeAt machine module]⟩], []⟩

/-- The visits have come to an end: one of them ended in a fault, or no frame waits any more. -/
def Ended : Except Fault Worklist → Prop
  | .error _ => True
  | .ok work => work.queue = []

/-- Along every lineage each code object comes up so many times at most. -/
def Recurs (ev : Evaluator) (work : Worklist) (bound : Nat) : Prop :=
  ∀ visits later, work.after ev visits = .ok later →
    ∀ waiting ∈ later.queue, ∀ code, waiting.lineage.count code ≤ bound

section Visits

variable {ev : Evaluator} {work : Worklist}

theorem after_of_empty (h : work.queue = []) (visits : Nat) : work.after ev visits = .ok work := by
  induction visits with
  | zero => rfl
  | succ visits ih =>
    have hvisit : work.visit ev = .ok work := by
      unfold visit
      rw [h]
    rw [after, hvisit]
    exact ih

theorem after_add (m n : Nat) : work.after ev (m + n) = work.after ev m >>= after ev n := by
  induction m generalizing work with
  | zero =>
    rw [Nat.zero_add]
    rfl
  | succ m ih =>
    rw [Nat.add_right_comm, after, after]
    cases work.visit ev with
    | error fault => rfl
    | ok next => exact ih

/-- Visits that have come to an end stay where they are. -/
theorem after_of_ended {visits more : Nat} (h : Ended (work.after ev visits)) :
    work.after ev (visits + more) = work.after ev visits := by
  rw [after_add]
  cases hw : work.after ev visits with
  | error fault => rfl
  | ok later =>
    rw [hw] at h
    exact after_of_empty h more

theorem visit_of_ok {next : Waiting} {rest : List Waiting} {found : List FrameId}
    {classes : List ClassId} {machine : Machine} (hqueue : work.queue = next :: rest)
    (h : Machine.visitFrame ev next.frame work.seen work.machine = (.ok (found, classes), machine)) :
    work.visit ev = .ok ⟨machine,
      rest ++ found.map fun id => ⟨id, codeAt machine id :: next.lineage⟩,
      work.seen ++ classes⟩ := by
  unfold visit
  rw [hqueue]
  dsimp only
  rw [h]

theorem visit_of_error {next : Waiting} {rest : List Waiting} {fault : Fault} {machine : Machine}
    (hqueue : work.queue = next :: rest)
    (h : Machine.visitFrame ev next.frame work.seen work.machine = (.error fault, machine)) :
    work.visit ev = .error fault := by
  unfold visit
  rw [hqueue]
  dsimp only
  rw [h]

/-- What a visit leaves behind: the frames that waited behind the first, and those that it found. -/
theorem visit_eq_ok {next : Waiting} {rest : List Waiting} {later : Worklist}
    (hqueue : work.queue = next :: rest) (h : work.visit ev = .ok later) :
    ∃ found classes, Machine.visitFrame ev next.frame work.seen work.machine =
        (.ok (found, classes), later.machine) ∧ later.seen = work.seen ++ classes ∧
      later.queue = rest ++ found.map fun id =>
        ⟨id, codeAt later.machine id :: next.lineage⟩ := by
  unfold visit at h
  rw [hqueue] at h
  dsimp only at h
  split at h
  · cases h
  case h_2 found classes machine hvisit =>
    cases h
    exact ⟨found, classes, hvisit, rfl, rfl⟩

/-! ## Generations -/

/-- When all frames that wait have been visited, the lineages of those found meanwhile are longer. -/
theorem exists_generation {length : Nat} {old new : List Waiting}
    (hqueue : work.queue = old ++ new) (hold : ∀ waiting ∈ old, length ≤ waiting.lineage.length)
    (hnew : ∀ waiting ∈ new, length + 1 ≤ waiting.lineage.length) :
    ∃ visits, ∀ later, work.after ev visits = .ok later →
      ∀ waiting ∈ later.queue, length + 1 ≤ waiting.lineage.length := by
  -- on the frames that waited at first; what they find goes behind the new ones
  induction old generalizing work new with
  | nil =>
    refine ⟨0, fun later hlater => ?_⟩
    cases hlater
    rw [hqueue]
    exact hnew
  | cons first rest ih =>
    simp only [List.forall_mem_cons] at hold
    cases hvisit : work.visit ev with
    | error fault =>
      refine ⟨1, fun later hlater => ?_⟩
      rw [after, hvisit] at hlater
      cases hlater
    | ok next =>
      obtain ⟨found, classes, -, -, hnext⟩ := visit_eq_ok (hqueue.trans (List.cons_append ..)) hvisit
      have longer : ∀ waiting ∈ new ++ found.map fun id =>
          (⟨id, codeAt next.machine id :: first.lineage⟩ : Waiting),
          length + 1 ≤ waiting.lineage.length := by
        refine List.forall_mem_append.mpr ⟨hnew, fun waiting hwaiting => ?_⟩
        obtain ⟨id, -, rfl⟩ := List.mem_map.mp hwaiting
        have hfirst := hold.1
        simp only [List.length_cons]
        omega
      obtain ⟨visits, h⟩ := ih (hnext.trans (List.append_assoc ..)) hold.2 longer
      refine ⟨visits + 1, fun later hlater => h later ?_⟩
      rwa [after, hvisit] at hlater

/-- From some visit on only frames with long lineages wait. -/
theorem exists_generations (work : Worklist) (length : Nat) :
    ∃ visits, ∀ later, work.after ev visits = .ok later →
      ∀ waiting ∈ later.queue, length ≤ waiting.lineage.length := by
  induction length with
  | zero => exact ⟨0, fun _ _ _ _ => Nat.zero_le _⟩
  | succ length ih =>
    obtain ⟨visits, h⟩ := ih
    cases hw : work.after ev visits with
    | error fault => exact ⟨visits, fun later hlater => (by rw [hw] at hlater; cases hlater)⟩
    | ok next =>
      obtain ⟨more, hmore⟩ : ∃ visits, ∀ later, next.after ev visits = .ok later →
          ∀ waiting ∈ later.queue, length + 1 ≤ waiting.lineage.length :=
        exists_generation (List.append_nil _).symm (h next hw) (List.forall_mem_nil _)
      refine ⟨visits + more, fun later hlater => hmore later ?_⟩
      rwa [after_add, hw] at hlater

/-! ## Lineages -/

/-- A list of which every item is one of the given ones is no longer than these repeat. -/
theorem length_le_of_count_le {codes lineage : List Code} {bound : Nat} (h : lineage ⊆ codes)
    (hcount : ∀ code, lineage.count code ≤ bound) : lineage.length ≤ codes.length * bound := by
  calc lineage.length = ∑ code ∈ lineage.toFinset, lineage.count code :=
        (List.sum_toFinset_count_eq_length lineage).symm
    _ ≤ lineage.toFinset.card * bound := Finset.sum_le_card_nsmul _ _ _ fun code _ => hcount code
    _ ≤ codes.length * bound := by
      refine Nat.mul_le_mul_right bound ?_
      calc lineage.toFinset.card ≤ codes.toFinset.card :=
            Finset.card_le_card fun code hcode =>
              List.mem_toFinset.mpr (h (List.mem_toFinset.mp hcode))
        _ ≤ codes.length := List.toFinset_card_le codes

/-- The machine is confined, and so is all code in lineages. -/
structure Confined (K : Confinement) (codes : List Code) (work : Worklist) : Prop where
  machine : work.machine.Confined K
  lineages : ∀ waiting ∈ work.queue, waiting.lineage ⊆ codes

/-- A frame that is looked up runs confined code, unless there is none at the position. -/
theorem codeAt_mem {K : Confinement} {machine : Machine} {codes : List Code}
    (h : machine.Confined K) (hcodes : ∀ site code, K.code site code → code ∈ codes)
    (id : FrameId) : codeAt machine id ∈ (default : Frame).code :: codes := by
  unfold codeAt Heap.frameAt
  rw [Array.getD_eq_getD_getElem?]
  cases hf : machine.context.heap.frames[id.index]? with
  | none => exact List.mem_cons_self
  | some frame =>
    have gathered := h.context.heap.frames frame (Array.mem_of_getElem? hf)
    exact List.mem_cons_of_mem _ (hcodes _ _ gathered.code)

theorem Confined.visit {K : Confinement} {codes : List Code} {later : Worklist}
    (h : work.Confined K ((default : Frame).code :: codes)) (steps : Stage.Steps (K.Holds []) K.code ev ev)
    (hcodes : ∀ site code, K.code site code → code ∈ codes) (hvisit : work.visit ev = .ok later) :
    later.Confined K ((default : Frame).code :: codes) := by
  cases hqueue : work.queue with
  | nil =>
    unfold Worklist.visit at hvisit
    rw [hqueue] at hvisit
    cases hvisit
    exact h
  | cons next rest =>
    obtain ⟨found, classes, hframe, -, hlater⟩ := visit_eq_ok hqueue hvisit
    have machine : later.machine.Confined K := by
      have step := (Machine.visitFrame_agree steps next.frame work.seen work.machine h.machine).2.1
      rwa [hframe] at step
    refine ⟨machine, ?_⟩
    have lineages := h.lineages
    rw [hqueue] at lineages
    simp only [List.forall_mem_cons] at lineages
    rw [hlater]
    refine List.forall_mem_append.mpr ⟨lineages.2, fun waiting hwaiting => ?_⟩
    obtain ⟨id, -, rfl⟩ := List.mem_map.mp hwaiting
    exact List.cons_subset.mpr ⟨codeAt_mem machine hcodes id, lineages.1⟩

theorem Confined.after {K : Confinement} {codes : List Code} {visits : Nat} {later : Worklist}
    (h : work.Confined K ((default : Frame).code :: codes)) (steps : Stage.Steps (K.Holds []) K.code ev ev)
    (hcodes : ∀ site code, K.code site code → code ∈ codes)
    (hafter : work.after ev visits = .ok later) :
    later.Confined K ((default : Frame).code :: codes) := by
  induction visits generalizing work with
  | zero =>
    cases hafter
    exact h
  | succ visits ih =>
    obtain ⟨next, hvisit, hafter⟩ := Except.bind_eq_ok.mp hafter
    exact ih (h.visit steps hcodes hvisit) hafter

/-- Where lineages repeat no code object more than so many times, the visits come to an end: there
are only so many code objects, so no lineage is longer than they repeat. -/
theorem ended_of_recurs {K : Confinement} {codes : List Code} {bound : Nat}
    (h : work.Confined K ((default : Frame).code :: codes)) (steps : Stage.Steps (K.Holds []) K.code ev ev)
    (hcodes : ∀ site code, K.code site code → code ∈ codes) (recurs : work.Recurs ev bound) :
    ∃ visits, Ended (work.after ev visits) := by
  obtain ⟨visits, long⟩ : ∃ visits, ∀ later, work.after ev visits = .ok later →
      ∀ waiting ∈ later.queue, (codes.length + 1) * bound + 1 ≤ waiting.lineage.length :=
    exists_generations work _
  refine ⟨visits, ?_⟩
  cases hafter : work.after ev visits with
  | error fault => trivial
  | ok later =>
    refine List.eq_nil_iff_forall_not_mem.mpr fun waiting hwaiting => ?_
    -- a frame that waits this late would repeat some code object too often
    have short := length_le_of_count_le ((h.after steps hcodes hafter).lineages waiting hwaiting)
      (recurs visits later hafter waiting hwaiting)
    have := long later hafter waiting hwaiting
    rw [List.length_cons] at short
    omega

/-- After finitely many visits only so many frames have waited. -/
theorem exists_bound (work : Worklist) (limit : Nat) : ∃ bound, ∀ visits ≤ limit, ∀ later,
    work.after ev visits = .ok later → ∀ waiting ∈ later.queue, ∀ code,
      waiting.lineage.count code ≤ bound := by
  have each (visits : Nat) : ∃ bound, ∀ later, work.after ev visits = .ok later →
      ∀ waiting ∈ later.queue, ∀ code, waiting.lineage.count code ≤ bound := by
    cases hafter : work.after ev visits with
    | error fault => exact ⟨0, fun _ h => (by cases h)⟩
    | ok next =>
      refine ⟨(next.queue.map (·.lineage.length)).sum, fun later hlater waiting hwaiting code => ?_⟩
      cases hlater
      exact (List.count_le_length ..).trans
        (List.le_sum_of_mem (List.mem_map.mpr ⟨waiting, hwaiting, rfl⟩))
  -- a single visit leaves finitely many frames, so the bounds of each have a maximum
  induction limit with
  | zero =>
    obtain ⟨bound, h⟩ := each 0
    exact ⟨bound, fun visits hle => (Nat.le_zero.mp hle) ▸ h⟩
  | succ limit ih =>
    obtain ⟨bound, h⟩ := ih
    obtain ⟨last, hlast⟩ := each (limit + 1)
    refine ⟨max bound last, fun visits hle later hlater waiting hwaiting code => ?_⟩
    rcases Nat.le_succ_iff.mp hle with hle | rfl
    · exact (h visits hle later hlater waiting hwaiting code).trans (Nat.le_max_left ..)
    · exact (hlast later hlater waiting hwaiting code).trans (Nat.le_max_right ..)

theorem recurs_of_ended {visits : Nat} (h : Ended (work.after ev visits)) :
    ∃ bound, work.Recurs ev bound := by
  obtain ⟨bound, hbound⟩ : ∃ bound, ∀ others ≤ visits, ∀ later, work.after ev others = .ok later →
      ∀ waiting ∈ later.queue, ∀ code, waiting.lineage.count code ≤ bound := exists_bound work visits
  refine ⟨bound, fun others later hlater => ?_⟩
  rcases Nat.le_total others visits with hle | hle
  · exact hbound others hle later hlater
  · obtain ⟨more, rfl⟩ := Nat.exists_eq_add_of_le hle
    rw [after_of_ended h] at hlater
    exact hbound visits (Nat.le_refl _) later hlater

end Visits

end Worklist

/-! ## The analysis of definitions -/

namespace Machine

open Worklist

/-- What a machine has recorded besides the state of the analysis. -/
structure Progress where
  phase : Phase
  code : Option (Code × CodeSite)
  moduleFrame : Option FrameId
  visited : List FrameId

/-- The progress of a machine. -/
def progress (machine : Machine) : Progress :=
  ⟨machine.phase, machine.code, machine.moduleFrame, machine.visited⟩

/-- More frames are visited. -/
def Progress.visit (progress : Progress) (frames : List FrameId) : Progress :=
  { progress with visited := progress.visited ++ frames }

section Visits

variable {ev : Evaluator} {work : Worklist} {visits : Nat}

/-- A visit records its frame behind the others and nothing else, whatever it ends in. -/
theorem progress_visitFrame (id : FrameId) (seen : List ClassId) (machine : Machine) :
    (visitFrame ev id seen machine).2.progress = machine.progress.visit [id] := by
  have still {α : Type} (step : Analysis α) (known : Progress) :
      Step.Agree (fun machine : Machine => machine.progress = known) (analysis step) (analysis step)
        fun _ => True := fun _ h => ⟨rfl, h, fun _ _ => trivial⟩
  have rest (known : Progress) : Step.Agree (fun m : Machine => m.progress = known)
      (do
        let heap := (← get).context.heap
        let frame := heap.frameAt id
        let classes := unseen seen (heap.withNested frame.classes)
        let called ← frame.functions.mapM fun function =>
          analysis (ev.analyseFunction (.function function))
        let bound ← classes.mapM fun cls => analysis (analyseClass ev cls)
        pure (called.flatten ++ bound.flatten, classes))
      (do
        let heap := (← get).context.heap
        let frame := heap.frameAt id
        let classes := unseen seen (heap.withNested frame.classes)
        let called ← frame.functions.mapM fun function =>
          analysis (ev.analyseFunction (.function function))
        let bound ← classes.mapM fun cls => analysis (analyseClass ev cls)
        pure (called.flatten ++ bound.flatten, classes)) fun _ => True := by
    refine .bind .get fun _ _ => .bind (.mapM (R := fun _ => True) fun _ _ => still _ _) fun _ _ => ?_
    exact .bind (.mapM (R := fun _ => True) fun _ _ => still _ _) fun _ _ => .pure trivial
  exact (rest _ { machine with visited := machine.visited ++ [id] } rfl).2.1

/-- A visit leaves the frames visited before alone, whatever it ends in. -/
theorem visited_visitFrame (id : FrameId) (seen : List ClassId) (machine : Machine) :
    (visitFrame ev id seen machine).2.visited = machine.visited ++ [id] :=
  congrArg Progress.visited (progress_visitFrame id seen machine)

/-- Visits that come to an end do so under every limit that lets them. -/
theorem visit_of_ended (h : Ended (work.after ev visits)) {limit : Nat} (hlimit : visits ≤ limit) :
    visit ev limit (work.queue.map (·.frame)) work.seen work.machine =
      visit ev visits (work.queue.map (·.frame)) work.seen work.machine := by
  induction visits generalizing work limit with
  | zero =>
    have hqueue : work.queue = [] := h
    rw [hqueue]
    simp [visit]
  | succ visits ih =>
    obtain ⟨limit, rfl⟩ := Nat.exists_eq_add_of_le' (Nat.le_trans (Nat.le_add_left 1 visits) hlimit)
    cases hqueue : work.queue with
    | nil => simp [visit]
    | cons next rest =>
      simp only [List.map_cons, visit]
      rw [Step.bind_apply, Step.bind_apply]
      rcases hframe : visitFrame ev next.frame work.seen work.machine with ⟨_ | ⟨found, classes⟩, m⟩
      · rfl
      · rw [after, visit_of_ok hqueue hframe] at h
        have hlimit : visits ≤ limit := by omega
        have tail := ih h hlimit
        simpa [Function.comp_def] using tail

/-- Visits that go on are cut off by the limit, having visited so many frames. -/
theorem visited_of_not_ended (h : ¬ Ended (work.after ev visits)) :
    (visit ev visits (work.queue.map (·.frame)) work.seen work.machine).2.visited.length =
      work.machine.visited.length + visits := by
  induction visits generalizing work with
  | zero =>
    cases hqueue : work.queue with
    | nil => exact absurd hqueue h
    | cons next rest => rfl
  | succ visits ih =>
    cases hqueue : work.queue with
    | nil =>
      rw [after_of_empty hqueue] at h
      exact absurd hqueue h
    | cons next rest =>
      have hvisited : (visitFrame ev next.frame work.seen work.machine).2.visited =
          work.machine.visited ++ [next.frame] := visited_visitFrame ..
      simp only [List.map_cons, visit]
      rw [Step.bind_apply]
      rcases hframe : visitFrame ev next.frame work.seen work.machine with ⟨_ | ⟨found, classes⟩, m⟩
      · rw [after, visit_of_error hqueue hframe] at h
        exact absurd trivial h
      · rw [after, visit_of_ok hqueue hframe] at h
        rw [hframe] at hvisited
        have tail := ih h
        have hm : m.visited = work.machine.visited ++ [next.frame] := hvisited
        simp only [List.map_append, List.map_map, Function.comp_def, List.map_id', hm,
          List.length_append, List.length_singleton] at tail
        simp only
        omega

/-- The analysis of definitions on a machine that has run its module. -/
theorem analyseDefinitionsWithin_apply {machine : Machine} {module : FrameId}
    (hphase : machine.phase = .moduleRun) (hmodule : machine.moduleFrame = some module)
    (limit : Nat) :
    analyseDefinitionsWithin ev limit machine =
      match visit ev limit [module] [] { machine with phase := .defAnalysis } with
      | (.ok _, later) => (.ok (), { later with phase := .done })
      | (.error fault, later) => (.error fault, later) := by
  obtain ⟨context, phase, code, moduleFrame, visited⟩ := machine
  obtain rfl : phase = .moduleRun := hphase
  obtain rfl : moduleFrame = some module := hmodule
  change (do
    visit ev limit [module] []
    modify fun machine => { machine with phase := .done } : MachineStep Unit)
      ⟨context, .defAnalysis, code, some module, visited⟩ = _
  rw [Step.bind_apply]
  dsimp only
  rcases visit ev limit [module] [] ⟨context, .defAnalysis, code, some module, visited⟩
    with ⟨_ | _, _⟩ <;> rfl

end Visits

/-- A module that has been run is ready for the analysis of its definitions. -/
theorem runModuleWith_ready {ev : Evaluator} {code : Code} {machine later : Machine} {id : FrameId}
    (h : runModuleWith ev code machine = (.ok id, later)) :
    later.phase = .moduleRun ∧ later.moduleFrame = some id := by
  change (if machine.phase ≠ .idle then throw (.inconsistent (.moduleHasRun machine.phase)) else do
      let site ← analysis Analysis.newRoot
      let frame ← analysis do (← Frame.forModule code site).runToEnd ev
      let id ← analysis (Analysis.withHeap (·.addFrame frame))
      modify fun machine =>
        { machine with phase := .moduleRun, code := some (code, site), moduleFrame := some id }
      pure id : MachineStep FrameId) machine = _ at h
  split at h
  · cases h
  · obtain ⟨site, _, -, h⟩ := Step.bind_eq_ok.mp h
    obtain ⟨frame, _, -, h⟩ := Step.bind_eq_ok.mp h
    obtain ⟨other, _, -, h⟩ := Step.bind_eq_ok.mp h
    obtain ⟨_, _, hmodify, h⟩ := Step.bind_eq_ok.mp h
    cases hmodify
    cases h
    exact ⟨rfl, rfl⟩

/-- The analysis of definitions ends by itself, in a fault or with everything analysed: once so many
visits are allowed, it makes no difference how many more are. -/
def Drains (ev : Evaluator) (machine : Machine) : Prop :=
  ∃ visits outcome, (outcome.1 = .ok () → outcome.2.phase = .done) ∧
    ∀ limit, visits ≤ limit → analyseDefinitionsWithin ev limit machine = outcome

theorem drains_iff_ended {ev : Evaluator} {machine : Machine} {module : FrameId}
    (hphase : machine.phase = .moduleRun) (hmodule : machine.moduleFrame = some module) :
    Drains ev machine ↔ ∃ visits, Ended ((Worklist.start machine module).after ev visits) := by
  constructor
  · rintro ⟨visits, outcome, -, h⟩
    by_contra never
    rw [not_exists] at never
    -- under two limits in a row different numbers of frames would be visited
    have visited (limit : Nat) (hlimit : visits ≤ limit) :
        outcome.2.visited.length = machine.visited.length + limit := by
      have count : (visit ev limit [module] [] { machine with phase := .defAnalysis }).2.visited.length =
          machine.visited.length + limit := visited_of_not_ended (never limit)
      rw [← count, ← h limit hlimit, analyseDefinitionsWithin_apply hphase hmodule]
      rcases visit ev limit [module] [] { machine with phase := .defAnalysis } with ⟨_ | _, _⟩ <;> rfl
    have here := visited visits (Nat.le_refl _)
    have there := visited (visits + 1) (Nat.le_succ _)
    omega
  · rintro ⟨visits, ended⟩
    refine ⟨visits, analyseDefinitionsWithin ev visits machine, ?_, fun limit hlimit => ?_⟩
    · rw [analyseDefinitionsWithin_apply hphase hmodule]
      rcases visit ev visits [module] [] { machine with phase := .defAnalysis } with ⟨_ | _, _⟩
      · exact fun h => (by cases h)
      · exact fun _ => rfl
    · rw [analyseDefinitionsWithin_apply hphase hmodule, analyseDefinitionsWithin_apply hphase hmodule]
      have same := visit_of_ended ended hlimit
      change visit ev limit [module] [] { machine with phase := .defAnalysis } =
        visit ev visits [module] [] { machine with phase := .defAnalysis } at same
      rw [same]

end Machine

/-- The confinement to the code within a module. -/
def Confinement.nestedIn (options : Options) (module : Code) : Confinement :=
  .ofCode options (fun _ body => body ∈ module.nested) (@Code.confined_nested module)
    (fun _ => True) 0

/-- The worklist of a module that has run drains just where no code object comes up more than so many
times among the frames that a frame was found through. -/
theorem Machine.drains_iff {options : Options} {code : Code} {depth : Nat} {id : FrameId}
    {machine : Machine}
    (run : runModuleWith (.atDepth depth) code (.new options) = (.ok id, machine)) :
    Drains (.atDepth depth) machine ↔
      ∃ bound, (Worklist.start machine id).Recurs (.atDepth depth) bound := by
  obtain ⟨hphase, hmodule⟩ := runModuleWith_ready run
  have steps := Confinement.stageSteps
    (Evaluator.agree_atDepth (.nestedIn options code) depth []) fun _ => trivial
  have hmachine : machine.Confined (.nestedIn options code) := by
    have step := (runModuleWith_agree steps (fun _ => List.mem_cons_self)
      (.new options) (confined_new options rfl rfl)).2.1
    rwa [run] at step
  have hcodes : ∀ site body, (Confinement.nestedIn options code).code site body →
      body ∈ code.nested := fun _ _ h => h
  have start : (Worklist.start machine id).Confined (.nestedIn options code)
      ((default : Frame).code :: code.nested) := by
    refine ⟨⟨hmachine.context, hmachine.code⟩, fun waiting hwaiting => ?_⟩
    obtain rfl := List.mem_singleton.mp hwaiting
    exact List.cons_subset.mpr ⟨Worklist.codeAt_mem hmachine hcodes id, List.nil_subset _⟩
  rw [drains_iff_ended hphase hmodule]
  constructor
  · rintro ⟨visits, ended⟩
    exact Worklist.recurs_of_ended ended
  · rintro ⟨bound, recurs⟩
    exact Worklist.ended_of_recurs start steps hcodes recurs

/-- The code of a module that defines a function. -/
def definingModule : Code :=
  (CodeBuilder.module.defFunction ((CodeBuilder.new "f").returnNone.build) "f").returnNone.build

/-- The module that defines a function runs, and its worklist drains as its lineages repeat code. -/
theorem definingModule_drains_iff : ∃ id machine,
    Machine.runModuleWith (.atDepth 1) definingModule (.new .standard) = (.ok id, machine) ∧
      (Machine.Drains (.atDepth 1) machine ↔
        ∃ bound, (Worklist.start machine id).Recurs (.atDepth 1) bound) := by
  obtain ⟨id, machine, run⟩ := Step.exists_of_isOk
    (r := Machine.runModuleWith (.atDepth 1) definingModule (.new .standard)) (by decide +kernel)
  exact ⟨id, machine, run, Machine.drains_iff run⟩

end StubInference
