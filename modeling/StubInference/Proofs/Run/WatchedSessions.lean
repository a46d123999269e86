import StubInference.Proofs.Run.Declarations
import StubInference.Proofs.Run.Discovery
import StubInference.Proofs.Run.WatchedFrames

/-!
# Watched sessions

A machine is in a sound state when its analysis is, and when every frame that it knows has been
recorded. A fresh machine is, and every stage leads from such a machine to another one, whatever it ends
in. So a session does not change by being watched, when the watch objects to nothing sound.

## Main definitions

* `Machine.Sound` — a machine in a sound state
* `Machine.Shadows` — a step of a machine does what another one does, and leads to a sound state

## Main results

* `Stage.watched_shadows` — one stage
* `Machine.watchedSession_eq`, `Machine.session_sound` — whole sessions
* `Machine.always_of_sound` — what holds in sound states holds at every moment
-/

namespace StubInference

open Step
open Realm (contexts)

/-- A machine in a sound state, all of whose frames have been recorded. -/
structure Machine.Sound (m : Machine) : Prop where
  good : contexts.Good Builtins.heap m.context
  known : ∀ id ∈ m.known, m.context.heap.Has (.frame id)

/-- From a machine on, the second step does what the first does, and leads to a machine in a sound
state. What it answers has a property there. -/
structure Machine.Shadows {α : Type} (m : Machine) (n n' : MachineStep α) (Q : Machine → α → Prop) :
    Prop where
  same : n' m = n m
  sound : (n m).2.Sound
  le : m.context.heap.SizeLE (n m).2.context.heap
  answer : ∀ a, (n m).1 = .ok a → Q (n m).2 a

namespace Machine

/-- The module is run and its frame recorded in one step of the analysis. -/
theorem runModuleBy_eq (run : Frame → Analysis Frame) (code : Code) :
    runModuleBy run code = (do
      let phase := (← get).phase
      if phase ≠ .idle then throw (.inconsistent (.moduleHasRun phase))
      let site ← analysis Analysis.newRoot
      let id ← analysis do
        let frame ← (do run (← Frame.forModule code site))
        Analysis.withHeap (·.addFrame frame)
      modify fun machine =>
        { machine with phase := .moduleRun, code := some (code, site), moduleFrame := some id }
      pure id) := by
  unfold runModuleBy
  simp only [analysis_bind, bind_assoc]

/-! ## Steps of a machine -/

namespace Shadows

variable {α β : Type} {m : Machine} {n n' : MachineStep α} {f g : α → MachineStep β}
  {Q : Machine → α → Prop} {R : Machine → β → Prop}

theorem pure (sound : m.Sound) {a : α} (h : Q m a) : m.Shadows (Pure.pure a) (Pure.pure a) Q :=
  ⟨rfl, sound, .refl _, fun _ ha => Except.ok.inj ha ▸ h⟩

theorem throw (sound : m.Sound) (fault : Fault) :
    m.Shadows (throw fault : MachineStep α) (throw fault) Q := ⟨rfl, sound, .refl _, nofun⟩

theorem bind (first : m.Shadows n n' Q) (second : ∀ a t, t.Sound →
    m.context.heap.SizeLE t.context.heap → Q t a → t.Shadows (f a) (g a) R) :
    m.Shadows (n >>= f) (n' >>= g) R := by
  obtain ⟨same, sound, le, answer⟩ := first
  rcases hn : n m with ⟨fault | a, t⟩ <;> rw [hn] at same sound le answer
  · exact ⟨by rw [bind_apply, bind_apply, same, hn], by simpa [bind_apply, hn] using sound,
      by simpa [bind_apply, hn] using le, by simp [bind_apply, hn]⟩
  · have rest := second a t sound le (answer a rfl)
    refine ⟨by rw [bind_apply, bind_apply, same, hn]; exact rest.same, ?_, ?_, ?_⟩ <;>
      rw [bind_apply, hn]
    · exact rest.sound
    · exact le.trans rest.le
    · exact rest.answer

/-- A step that only reads. -/
theorem read {a : α} (now : n m = (.ok a, m)) (rest : m.Shadows (f a) (g a) R) :
    m.Shadows (n >>= f) (n >>= g) R := by
  obtain ⟨same, sound, le, answer⟩ := rest
  constructor <;> simp only [bind_apply, now] <;> assumption

/-- The second step may read before it starts. -/
theorem after {γ : Type} {look : MachineStep γ} {g : γ → MachineStep α} {c : γ}
    (now : look m = (.ok c, m)) (rest : m.Shadows n (g c) Q) : m.Shadows n (look >>= g) Q := by
  obtain ⟨same, sound, le, answer⟩ := rest
  exact ⟨by rw [bind_apply, now]; exact same, sound, le, answer⟩

/-- The machine keeps something else besides the state of the analysis. -/
theorem keep (change : Machine → Machine) (sound : m.Sound)
    (context : (change m).context = m.context)
    (known : ∀ id ∈ (change m).known, m.context.heap.Has (.frame id)) :
    m.Shadows (modify change) (modify change) fun t _ => t = change m where
  same := rfl
  sound := ⟨context ▸ sound.good, context ▸ known⟩
  le := context ▸ .refl m.context.heap
  answer _ _ := rfl

theorem analysis {n n' : Analysis α} {e : Renaming → α → α} (sound : m.Sound)
    (mirrors : contexts.Mirrors m.context n e) (shadows : contexts.Shadows m.context n n') :
    m.Shadows (Machine.analysis n) (Machine.analysis n') fun t a => t.context.heap.Holds e a := by
  obtain ⟨good, le, answer⟩ := sound.good.run mirrors shadows.layered
  refine ⟨?_, ⟨good, fun id hid => le.has (sound.known id hid)⟩, le, answer⟩
  rw [analysis_apply, analysis_apply, shadows.same]

end Shadows

/-! ## The analysis of definitions -/

section Stages

variable {m : Machine} {ev : Evaluator}

section Definitions

variable {base : Heap} {ctx : Context} {ev' : Evaluator} (hev : ev.Shadows base ev')
include hev

theorem analyseClass_shadows (good : contexts.Good base ctx) {cls : ClassId}
    (hcls : ctx.heap.Holds Renaming.cls cls) :
    contexts.Shadows ctx (analyseClass ev cls) (analyseClass ev' cls) := by
  unfold analyseClass
  refine .bind good (instantiate_settled hcls) (withInstance_shadows good hcls)
    fun receiver t _ good' le hreceiver => .read (a := (t.heap.classAt cls).functions) rfl ?_
  have functions : ∀ id ∈ (t.heap.classAt cls).functions, t.heap.Holds Renaming.fn id :=
    fun id hid E fixes => by
      have same := congrArg ClassInfo.functions (good'.classAt (hcls.mono le) E fixes)
      rw [ClassInfo.functions_rename, map_eq_self] at same
      exact same id hid
  have each (E : Renaming) (fixes : E.Fixes t.heap) (u : Context) (id : FunctionId) :
      Step.Mirrors E.contexts u (ev.analyseFunction (Value.bind receiver id))
        (ev.analyseFunction (Value.bind receiver (E.fn id))) (List.map E.frame) := by
    have mirrored : Step.Mirrors E.contexts u _ _ _ :=
      analyseFunction_mirrors (hev.mirrors E) (Value.bind receiver id)
    rwa [← Value.bind_rename, hreceiver E fixes] at mirrored
  refine .answer good' (.mapM _ each functions) ?_ _
  refine .mapM _ good'.rebase each functions fun u id good'' hid => ?_
  refine analyseFunction_shadows hev (good''.weaken good'.base) fun E fixes => ?_
  rw [← Value.bind_rename, hreceiver.mono good''.base E fixes, hid E fixes]

theorem discover_shadows (good : contexts.Good base ctx) {functions : List FunctionId}
    {classes : List ClassId} (hfunctions : ∀ id ∈ functions, ctx.heap.Holds Renaming.fn id)
    (hclasses : ∀ cls ∈ classes, ctx.heap.Holds Renaming.cls cls) :
    contexts.Shadows ctx (discover ev functions classes) (discover ev' functions classes) := by
  have run (E : Renaming) (t : Context) (id : FunctionId) :
      Step.Mirrors E.contexts t (ev.analyseFunction (.function id))
        (ev.analyseFunction (.function (E.fn id))) (List.map E.frame) :=
    analyseFunction_mirrors (hev.mirrors E) (.function id)
  unfold discover
  refine .bind good (.mapM _ (fun E _ => run E) hfunctions) (.mapM _ good (fun E _ => run E) hfunctions
    fun t id good hid => ?_) fun called t _ good' le _ => ?_
  · exact analyseFunction_shadows hev good fun E fixes => congrArg Value.function (hid E fixes)
  have later : ∀ cls ∈ classes, t.heap.Holds Renaming.cls cls := fun cls hcls =>
    (hclasses cls hcls).mono le
  have each (E : Renaming) (u : Context) (cls : ClassId) :
      Step.Mirrors E.contexts u (analyseClass ev cls) (analyseClass ev (E.cls cls))
        (List.map E.frame) := analyseClass_mirrors (hev.mirrors E) cls
  exact .answer good' (.mapM _ (fun E _ => each E) later)
    (.mapM _ good' (fun E _ => each E) later fun u cls good hcls => analyseClass_shadows hev good hcls) _

omit hev in
theorem discover_settled (hev : ∀ E : Renaming, ev.Mirrors E) {functions : List FunctionId}
    {classes : List ClassId} (hfunctions : ∀ id ∈ functions, ctx.heap.Holds Renaming.fn id)
    (hclasses : ∀ cls ∈ classes, ctx.heap.Holds Renaming.cls cls) :
    contexts.Mirrors ctx (discover ev functions classes) fun E => List.map E.frame :=
  .of_eq (fun E _ => discover_mirrors (hev E) functions classes) fun E fixes => by
    rw [map_eq_self.mpr fun id hid => hfunctions id hid E fixes,
      map_eq_self.mpr fun cls hcls => hclasses cls hcls E fixes]

end Definitions

/-- A visit of a frame that has been recorded finds others that have been recorded. -/
theorem visitFrame_shadows {ev' : Evaluator} (sound : m.Sound)
    (hev : ev.Shadows m.context.heap ev') {id : FrameId} (hid : m.context.heap.Has (.frame id))
    (seen : List ClassId) : m.Shadows (visitFrame ev id seen) (visitFrame ev' id seen)
      fun t answer => ∀ frame ∈ answer.1, t.context.heap.Has (.frame frame) := by
  rw [visitFrame_eq, visitFrame_eq]
  refine .bind (.keep _ sound rfl fun other hother => ?_) fun _ t sound' _ ht => ?_
  · simp only [known, ← List.append_assoc] at hother
    rcases List.mem_append.mp hother with h | h
    · exact sound.known other h
    · exact List.mem_singleton.mp h ▸ hid
  subst ht
  have good := sound.good.rebase
  have hframe := good.frameAt hid
  -- what the frame lists is known, and so is what can be reached from its classes
  have hfunctions : ∀ function ∈ (m.context.heap.frameAt id).functions,
      m.context.heap.Holds Renaming.fn function := fun function hmem E fixes =>
    map_eq_self.mp (congrArg Frame.functions (hframe E fixes)) function hmem
  have hclasses : ∀ cls ∈ unseen seen (m.context.heap.withNested (m.context.heap.frameAt id).classes),
      m.context.heap.Holds Renaming.cls cls := fun cls hmem E fixes => by
    have nests := (m.context.heap.mem_withNested _ _).mp (mem_unseen.mp hmem).1
    exact fixes.cls (good.closed.nests_lt (fun _ listed => good.closed.frame_classes hid listed) nests)
  refine .read rfl (.bind (.analysis sound' (discover_settled hev.mirrors hfunctions hclasses)
    (discover_shadows hev good hfunctions hclasses)) fun found t sound₂ _ hfound => ?_)
  exact .pure sound₂ fun frame hmem => sound₂.good.has_frame fun E fixes =>
    map_eq_self.mp (hfound E fixes) frame hmem

/-! ## The queue -/

/-- Frames are visited in the same order, and those that wait have been recorded. -/
theorem visitBy_shadows {ev' : List FrameId → Evaluator}
    (hev : ∀ {heap known}, Builtins.heap.SizeLE heap → (∀ id ∈ known, heap.Has (.frame id)) →
      ev.Shadows heap (ev' known)) (fuel : Nat) {queue : List FrameId} (seen : List ClassId)
    (sound : m.Sound) (hqueue : ∀ id ∈ queue, m.context.heap.Has (.frame id)) :
    m.Shadows (visit ev fuel queue seen) (visitBy ev' fuel queue seen) fun _ _ => True := by
  induction fuel generalizing m queue seen with
  | zero =>
    cases queue with
    | nil => exact .pure sound trivial
    | cons id rest => exact .throw sound _
  | succ fuel ih =>
    cases queue with
    | nil => exact .pure sound trivial
    | cons id rest =>
      have known : ∀ other ∈ m.known ++ id :: rest, m.context.heap.Has (.frame other) :=
        List.forall_mem_append.mpr ⟨sound.known, hqueue⟩
      rw [List.forall_mem_cons] at hqueue
      refine .after rfl (.bind (visitFrame_shadows sound (hev sound.good.large known) hqueue.1 seen)
        fun answer t sound' le hanswer => ?_)
      refine ih _ sound' (List.forall_mem_append.mpr ⟨fun other hother => ?_, hanswer⟩)
      exact le.has (hqueue.2 other hother)

theorem analyseDefinitionsBy_shadows {ev' : List FrameId → Evaluator}
    (hev : ∀ {heap known}, Builtins.heap.SizeLE heap → (∀ id ∈ known, heap.Has (.frame id)) →
      ev.Shadows heap (ev' known)) (sound : m.Sound) :
    m.Shadows (analyseDefinitionsWith ev) (analyseDefinitionsBy ev') fun _ _ => True := by
  unfold analyseDefinitionsWith analyseDefinitionsWithin analyseDefinitionsBy
  refine .read (a := m) rfl ?_
  obtain ⟨context, phase, code, moduleFrame, visited⟩ := m
  cases phase with
  | moduleRun =>
    cases moduleFrame with
    | none => exact .throw sound _
    | some module =>
      refine .bind (.keep (fun machine => { machine with phase := .defAnalysis }) sound rfl
        sound.known) fun _ t sound' _ ht => ?_
      subst ht
      refine .bind (visitBy_shadows hev _ [] sound' ?_) fun _ u sound₂ _ _ => ?_
      · exact List.forall_mem_singleton.mpr (sound.known module (List.mem_cons_self ..))
      · exact ⟨rfl, ⟨sound₂.good, sound₂.known⟩, .refl _, fun _ _ => trivial⟩
  | _ => exact .throw sound _

/-! ## The runs of the module -/

/-- Runs of a frame from states that have grown from the one of a machine. -/
def RunsLike (m : Machine) (ev : Evaluator) (run : Frame → Analysis Frame) : Prop :=
  ∀ (ctx : Context) (frame : Frame), contexts.Good Builtins.heap ctx →
    m.context.heap.SizeLE ctx.heap → ctx.heap.Holds Frame.rename frame →
    contexts.Shadows ctx (frame.runToEnd ev) (run frame)

section Runs

variable {run : Frame → Analysis Frame}

theorem RunsLike.moduleFrame (hrun : m.RunsLike ev run) {ctx : Context}
    (good : contexts.Good Builtins.heap ctx) (le : m.context.heap.SizeLE ctx.heap) (code : Code)
    (site : CodeSite) : contexts.Shadows ctx (do (← Frame.forModule code site).runToEnd ev)
      (do run (← Frame.forModule code site)) :=
  .bind good (fun _ _ => Frame.forModule_mirrors code site) ⟨rfl, good.layered⟩
    fun _ _ _ good' le' hframe => hrun _ _ good' (le.trans le') hframe

/-- Counting the code that has been run is no matter of soundness. -/
theorem Sound.newRoot (sound : m.Sound) :
    m.Shadows (analysis Analysis.newRoot) (analysis Analysis.newRoot) fun _ _ => True where
  same := rfl
  sound := by
    refine ⟨⟨sound.good.base, sound.good.large, fun E fixes => ?_, sound.good.layered⟩, sound.known⟩
    have matched := sound.good.named E fixes
    exact ⟨matched.heap, matched.options, matched.callStack⟩
  le := .refl _
  answer _ _ := trivial

variable (hev : ∀ E : Renaming, ev.Mirrors E) (hrun : m.RunsLike ev run) (sound : m.Sound)
include hev hrun sound

theorem runModuleBy_shadows (code : Code) :
    m.Shadows (runModuleWith ev code) (runModuleBy run code) fun _ _ => True := by
  rw [show runModuleWith ev code = runModuleBy (·.runToEnd ev) code from rfl, runModuleBy_eq,
    runModuleBy_eq]
  refine .read (a := m) rfl ?_
  dsimp only
  split
  · exact .bind (.throw sound _) fun _ _ _ _ h => False.elim h
  refine .bind (Sound.newRoot sound) fun site t sound₁ le _ => ?_
  have recorded : contexts.Shadows t.context (recordModule ev code site) (do
      let frame ← (do run (← Frame.forModule code site))
      Analysis.withHeap (·.addFrame frame)) :=
    .bind sound₁.good (fun E _ => runModuleFrame_mirrors (hev E) code site)
      (hrun.moduleFrame sound₁.good le code site) fun _ _ _ good _ _ => ⟨rfl, good.layered⟩
  refine .bind (.analysis sound₁ (fun E _ => recordModule_mirrors (hev E) code site _) recorded)
    fun id u sound₂ _ hid => ?_
  refine .bind (.keep _ sound₂ rfl fun other hother => ?_) fun _ v sound₃ _ _ => .pure sound₃ trivial
  rcases List.mem_append.mp hother with h | h
  · rw [List.mem_singleton.mp h]
    exact sound₂.good.has_frame hid
  · exact sound₂.known other (List.mem_append_right _ h)

theorem inferStubBy_shadows {declare : Frame → Analysis (List Stub.Definition)}
    (hdeclare : ∀ {ctx : Context} {frame : Frame}, contexts.Good Builtins.heap ctx →
      m.context.heap.SizeLE ctx.heap → ctx.heap.Holds Frame.rename frame →
      contexts.Shadows ctx (definitionsOf ev frame.finalLocals) (declare frame)) :
    m.Shadows (inferStubWith ev) (inferStubBy run declare) fun _ _ => True := by
  unfold inferStubWith inferStubBy
  refine .read (a := m) rfl ?_
  cases m.code with
  | none => exact .throw sound _
  | some entry =>
    obtain ⟨code, site⟩ := entry
    refine .bind (.analysis sound (fun E _ => runModuleFrame_mirrors (hev E) code site)
      (hrun.moduleFrame sound.good (.refl _) code site)) fun frame t sound₁ le hframe => ?_
    have settled : contexts.Mirrors t.context (definitionsOf ev frame.finalLocals)
        fun _ => List.map id :=
      .of_eq (fun E _ => definitionsOf_mirrors (hev E) frame.finalLocals) fun E fixes => by
        rw [show frame.finalLocals.mapValues (Variable.rename E) = frame.finalLocals from
          congrArg Frame.finalLocals (hframe E fixes)]
    refine .bind (.analysis sound₁ settled (hdeclare sound₁.good le hframe))
      fun definitions u sound₂ _ _ => .read (a := u) rfl ?_
    cases Stub.assemble u.context.options.moduleName definitions with
    | ok unit => exact .pure sound₂ trivial
    | error cause => exact .throw sound₂ _

end Runs

end Stages

end Machine

/-! ## Watched stages -/

/-- Frames that have been recorded are known. -/
theorem Snapshot.known_idle {heap : Heap} {known : List FrameId}
    (h : ∀ id ∈ known, heap.Has (.frame id)) : (idle known).Known heap := by
  simpa [Known, handles, idle] using h

/-- A fresh machine is in a sound state. -/
theorem Machine.sound_new (options : Options) : (new options).Sound where
  good :=
    have closed : Context.Closed (.new options) := Context.closed_builtins rfl rfl
    ⟨.refl _, closed.large, closed.named, Heap.layered_builtins⟩
  known := nofun

section Watched

variable {watch : Watch} (silent : watch.Silent) {m : Machine} (sound : m.Sound) (depth : Nat)
include silent sound

theorem Watch.Silent.idle : Machine.analysis (watch.look (.idle m.known)) m = (.ok (), m) := by
  rw [Machine.analysis_apply, silent.look sound.good (Snapshot.known_idle sound.known)]

theorem Watch.Silent.runsLike :
    m.RunsLike (.atDepth depth) (watch.runModuleFrame depth m.known) := by
  intro ctx frame good le hframe
  have known : (Snapshot.idle m.known).Known ctx.heap :=
    (Snapshot.known_idle sound.known).mono le
  exact Frame.runToEnd_shadows (fun E => Evaluator.atDepth_mirrors E depth)
    (fun op good => FrameStep.watchedStep_shadows silent (fun E => Evaluator.atDepth_mirrors E depth)
      (Evaluator.watched_shadows silent depth) good known op) good.rebase hframe

theorem Watch.Silent.definitionsOf {ctx : Context} {frame : Frame}
    (good : contexts.Good Builtins.heap ctx) (le : m.context.heap.SizeLE ctx.heap)
    (hframe : ctx.heap.Holds Frame.rename frame) :
    contexts.Shadows ctx (Machine.definitionsOf (.atDepth depth) frame.finalLocals)
      (watch.definitionsOf depth m.known frame) := by
  have here := ((Snapshot.known_idle sound.known).mono le).withFrame good.large hframe
  refine .after (silent.look good here) ?_
  exact definitionsOf_shadows (Evaluator.watched_shadows silent depth good.large here) good.rebase
    fun E fixes => congrArg Frame.finalLocals (hframe E fixes)

/-- A stage does the same watched, and leads to a machine in a sound state again. -/
theorem Stage.watched_shadows (stage : Stage) :
    m.Shadows (stage.runWith (.atDepth depth)) (stage.watched watch depth) fun _ _ => True := by
  have hev (E : Renaming) := Evaluator.atDepth_mirrors E depth
  have looked := silent.idle sound
  have hrun := silent.runsLike sound depth
  cases stage with
  | runModule code =>
    refine .after rfl (.after looked ?_)
    exact .bind (Machine.runModuleBy_shadows hev hrun sound code) fun _ _ sound' _ _ =>
      .pure sound' trivial
  | analyseDefinitions =>
    refine .after rfl (.after looked ?_)
    exact Machine.analyseDefinitionsBy_shadows (fun large known =>
      Evaluator.watched_shadows silent depth large (Snapshot.known_idle known)) sound
  | inferStub =>
    refine .after rfl (.after looked ?_)
    exact .bind (Machine.inferStubBy_shadows hev hrun sound (silent.definitionsOf sound depth))
      fun _ _ sound' _ _ => .pure sound' trivial

/-- A session does not change by being watched, and leads to a machine in a sound state. -/
theorem Machine.watchedSession_eq (stages : List Stage) :
    watchedSession watch depth stages m = session (.atDepth depth) stages m ∧
      (session (.atDepth depth) stages m).2.Sound := by
  induction stages generalizing m with
  | nil => exact ⟨rfl, sound⟩
  | cons stage rest ih =>
    have first := stage.watched_shadows silent sound depth
    obtain ⟨same, sound'⟩ := ih first.sound
    rw [watchedSession, session, first.same]
    exact ⟨congrArg (fun after : List (Except Fault Unit) × Machine =>
      ((stage.runWith (.atDepth depth) m).1 :: after.1, after.2)) same, sound'⟩

end Watched

theorem Machine.session_sound {m : Machine} (sound : m.Sound) (depth : Nat) (stages : List Stage) :
    (session (.atDepth depth) stages m).2.Sound :=
  have silent : Watch.Silent fun _ _ => .ok () := fun _ _ => rfl
  (watchedSession_eq silent sound depth stages).2

/-- What holds in every sound state where all that there is is known holds at every moment. -/
theorem Machine.always_of_sound {P : Snapshot → Context → Prop}
    [∀ moment ctx, Decidable (P moment ctx)]
    (h : ∀ {base ctx moment}, contexts.Good base ctx → moment.Known ctx.heap → P moment ctx)
    (options : Options) (stages : List Stage) : Always P options stages := by
  have silent (fault : Fault) : (Watch.asserting P fault).Silent := fun good known =>
    if_pos (h good known)
  have fresh := sound_new options
  refine ⟨fun depth fault => (watchedSession_eq (silent fault) fresh depth stages).1, fun depth => ?_⟩
  have sound := session_sound fresh depth stages
  exact h sound.good (Snapshot.known_idle sound.known)

/-- The moments of a session are those of the calls inside as well. -/
example : ¬ Machine.Always (fun moment _ => moment.running.length ≤ 1) .standard
    [.runModule Machine.instanceModule] := fun h =>
  absurd (congrArg (fun after => after.1.all Except.isOk) (h.during depthLimit (.inconsistent .noModule)))
    (by decide +kernel)

end StubInference
