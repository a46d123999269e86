import StubInference.Proofs.Run.Faults
import StubInference.Proofs.Run.Nesting

/-!
# Hidden faults

Bodies run calls and calls run bodies, so that no body ends in a fault of some kind is shown about an
evaluator that hides such faults where a body ends in one: nothing that is built on it ends in such a
fault. Where the code that may run leads to none, there is nothing to hide, and it is the interpreter.

What code leads to may depend on the state that it runs in, so a body is asked for no more than what it
does within a confinement.

## Main definitions

* `Step.AvoidsOn` — a step that ends in no fault of a kind from the states with an invariant
* `Analysis.veil`, `Evaluator.veiled` — hidden faults, and the evaluator that hides those of bodies
* `Confinement.Excludes` — bodies and modules within a confinement end in no fault of a kind
* `Confinement.everywhere` — the confinement to code all of whose code objects have a property

## Main results

* `Evaluator.agree_veiled` — where faults of a kind are excluded, nothing is hidden
* `Machine.session_avoids` — where they are, sessions end in none
-/

namespace StubInference

open Step

/-! ## Faults under an invariant -/

/-- From every state with an invariant, a step ends in no fault of the kind watched for. -/
def Step.AvoidsOn {σ α : Type} (I : σ → Prop) (watched : Option Fault.Kind)
    (m : ExceptT Fault (StateM σ) α) : Prop :=
  ∀ s, I s → ∀ fault, (m s).1 = .error fault → fault.Outside watched

namespace Step.AvoidsOn

variable {σ α β : Type} {I : σ → Prop} {watched : Option Fault.Kind}
  {m : ExceptT Fault (StateM σ) α} {f : α → ExceptT Fault (StateM σ) β} {Q : α → Prop}

theorem of_avoids (h : Avoids watched m) : AvoidsOn I watched m := fun s _ => h s

/-- Behind a step that keeps the invariant. -/
theorem bind (first : AvoidsOn I watched m) (keeps : Agree I m m Q)
    (second : ∀ a, Q a → AvoidsOn I watched (f a)) : AvoidsOn I watched (m >>= f) := by
  intro s hs fault h
  obtain ⟨-, kept, answer⟩ := keeps s hs
  rw [bind_apply] at h
  rcases hm : m s with ⟨_ | a, t⟩ <;> rw [hm] at h kept answer
  · cases h
    exact first s hs fault (by rw [hm])
  · exact second a (answer a rfl) t kept fault h

/-- Behind a step that ends in no fault of the kind from anywhere. -/
theorem after (first : Avoids watched m) (keeps : Agree I m m Q)
    (second : ∀ a, Q a → AvoidsOn I watched (f a)) : AvoidsOn I watched (m >>= f) :=
  (of_avoids first).bind keeps second

theorem ite {c : Prop} [Decidable c] {m' : ExceptT Fault (StateM σ) α}
    (hpos : c → AvoidsOn I watched m) (hneg : ¬ c → AvoidsOn I watched m') :
    AvoidsOn I watched (if c then m else m') := by
  split
  case isTrue h => exact hpos h
  case isFalse h => exact hneg h

end Step.AvoidsOn

/-- The first one of two steps that agree agrees with itself. -/
theorem Step.Agree.left {σ α : Type} {I : σ → Prop} {m n : ExceptT Fault (StateM σ) α} {Q : α → Prop}
    (h : Agree I m n Q) : Agree I m m Q := fun s hs =>
  have ⟨same, kept, answer⟩ := h s hs
  ⟨rfl, same ▸ kept, same ▸ answer⟩

theorem Evaluator.Agree.left {K : Confinement} {stack : List FunctionId} {ev ev' : Evaluator}
    (h : Agree K stack ev ev') : Agree K stack ev ev where
  body id function locals hcode hglobals hlocals enterable :=
    (h.body id function locals hcode hglobals hlocals enterable).left
  classBody id function locals hcode hglobals hlocals :=
    (h.classBody id function locals hcode hglobals hlocals).left
  hook hook cls rest args hargs hpositional := (h.hook hook cls rest args hargs hpositional).left

/-! ## Hidden faults -/

/-- A step that ends in another fault where it would end in one of the given kind. -/
def Analysis.veil {α : Type} (kind : Fault.Kind) (step : Analysis α) : Analysis α := fun ctx =>
  match step ctx with
  | (.error fault, ctx) =>
    (.error (if fault.kind? = some kind then .inconsistent .unbounded else fault), ctx)
  | (.ok answer, ctx) => (.ok answer, ctx)

theorem Analysis.veil_avoids {α : Type} (kind : Fault.Kind) (step : Analysis α) :
    Avoids (some kind) (step.veil kind) := by
  intro ctx fault h
  unfold veil at h
  rcases hstep : step ctx with ⟨fault' | answer, ctx'⟩ <;> rw [hstep] at h <;> cases h
  rintro other ⟨⟩
  split
  · nofun
  · assumption

/-- Where a step ends in no fault of the kind there is nothing to hide. -/
theorem Analysis.veil_apply {α : Type} {kind : Fault.Kind} {step : Analysis α} {ctx : Context}
    (h : ∀ fault, (step ctx).1 = .error fault → fault.Outside (some kind)) :
    step.veil kind ctx = step ctx := by
  unfold veil
  rcases hstep : step ctx with ⟨fault | answer, ctx'⟩
  · have outside := h fault (by rw [hstep]) kind rfl
    simp only [outside, if_false]
  · rfl

/-- The evaluator that may nest bodies so deep, and that hides the faults of a kind that bodies end
in. -/
def Evaluator.veiled (kind : Fault.Kind) : Nat → Evaluator
  | 0 => atDepth 0
  | depth + 1 =>
    ⟨fun id function locals => (runIn (veiled kind depth) id function locals).veil kind,
      fun id function locals => (runIn (veiled kind depth) id function locals).veil kind,
      fun callee args => callValue (veiled kind depth) args callee⟩

theorem Evaluator.veiled_avoids (kind : Fault.Kind) (depth : Nat) :
    (veiled kind depth).Avoids (some kind) := by
  induction depth with
  | zero => exact (Analysis.avoids_closed _).atDepth_zero
  | succ depth ih =>
    exact ⟨fun _ _ _ => Analysis.veil_avoids kind _, fun _ _ _ => Analysis.veil_avoids kind _,
      fun callee args => callValue_avoids ih args callee⟩

/-! ## Excluded faults -/

/-- Within a confinement no body and no module ends in a fault of a kind, where the calls that it makes
end in none. -/
structure Confinement.Excludes (K : Confinement) (kind : Fault.Kind) : Prop where
  body : ∀ {ev : Evaluator} {stack : List FunctionId} {id : FunctionId}
    {function : InterpretedFunction} {locals : NameMap Variable}, ev.Avoids (some kind) →
    Evaluator.Agree K (id :: stack) ev ev → K.code function.site function.code →
    K.isGlobals function.surroundings.globals → NameMap.Confined K.code locals →
    AvoidsOn (K.Holds stack) (some kind) (Evaluator.runIn ev id function locals)
  module : ∀ {ev : Evaluator} {code : Code} {site : CodeSite}, ev.Avoids (some kind) →
    Evaluator.Agree K [] ev ev → K.code site code → (∀ scope, K.isGlobals scope) →
    AvoidsOn (K.Holds []) (some kind) (do (← Frame.forModule code site).runToEnd ev)

variable {K : Confinement} {kind : Fault.Kind}

/-- Where faults of a kind are excluded, nothing is hidden. -/
theorem Evaluator.agree_veiled (excludes : K.Excludes kind) (depth : Nat) (stack : List FunctionId) :
    Evaluator.Agree K stack (veiled kind depth) (atDepth depth) := by
  induction depth generalizing stack with
  | zero => exact agree_atDepth _ 0 stack
  | succ depth ih =>
    have body (id : FunctionId) (function : InterpretedFunction) (locals : NameMap Variable)
        (hcode : K.code function.site function.code)
        (hglobals : K.isGlobals function.surroundings.globals)
        (hlocals : NameMap.Confined K.code locals) :
        Step.Agree (K.Holds stack) ((runIn (veiled kind depth) id function locals).veil kind)
          (runIn (atDepth depth) id function locals) fun _ => True := by
      have same := runIn_agree (ih (id :: stack)) hcode hglobals hlocals
      have plain := excludes.body (veiled_avoids kind depth) (ih (id :: stack)).left hcode hglobals
        hlocals
      intro ctx hctx
      rw [Analysis.veil_apply (plain ctx hctx)]
      exact same ctx hctx
    exact ⟨fun id function locals hcode hglobals hlocals _ =>
        body id function locals hcode hglobals hlocals,
      fun id function locals hcode hglobals hlocals =>
        body id function locals hcode hglobals hlocals,
      fun hook _ _ _ hargs hpositional => callHook_agree (ih stack).body hook hargs hpositional⟩

/-! ## Machines -/

namespace Machine

variable {α : Type} {I : Context → Prop} {P : CodeSite → Code → Prop} {watched : Option Fault.Kind}
  {ev : Evaluator}

theorem avoidsOn_analysis {step : Analysis α} (h : AvoidsOn I watched step) :
    AvoidsOn (Machine.Between I P) watched (analysis step) :=
  fun machine hm => h machine.context hm.context

/-- The run of the module is the one step that needs the invariant. -/
theorem runModuleWith_avoidsOn (steps : Stage.Steps I P ev ev) {code : Code}
    (hcode : ∀ site, P site code) (frame : ∀ site,
      AvoidsOn I watched (do (← Frame.forModule code site).runToEnd ev)) :
    AvoidsOn (Machine.Between I P) watched (runModuleWith ev code) := by
  have root : Step.Agree I Analysis.newRoot Analysis.newRoot fun _ => True := fun ctx hctx =>
    ⟨rfl, steps.roots ctx _ hctx, fun _ _ => trivial⟩
  unfold runModuleWith
  refine .after .get .get fun machine _ => .ite (fun _ => ?_) fun _ => ?_
  · exact .after (Q := fun _ => False) (.throw (.of_kind? rfl)) (.throw _) fun _ h => h.elim
  refine .after (avoids_analysis nofun) (agree_analysis root) fun site _ => ?_
  refine (avoidsOn_analysis (frame site)).bind (agree_analysis (steps.moduleFrame (hcode site)))
    fun frame _ => .of_avoids ?_
  exact .bind (avoids_analysis (Analysis.avoids_withHeap _)) fun id => .bind (.modify _) fun _ =>
    .pure _

theorem inferStubWith_avoidsOn (unassembled : watched ≠ some .assembly) (hev : ev.Avoids watched)
    (steps : Stage.Steps I P ev ev) (frame : ∀ code site, P site code →
      AvoidsOn I watched (do (← Frame.forModule code site).runToEnd ev)) :
    AvoidsOn (Machine.Between I P) watched (inferStubWith ev) := by
  unfold inferStubWith
  refine .after .get .get fun machine hm => ?_
  split
  case h_1 => exact .of_avoids (.throw (.of_kind? rfl))
  case h_2 code site known =>
    have hcode := hm.code code site known
    refine (avoidsOn_analysis (frame code site hcode)).bind
      (agree_analysis (steps.moduleFrame hcode)) fun frame _ => .of_avoids ?_
    -- the names that it ends with are declared, and the declarations are put together
    refine .bind (avoids_analysis (definitionsOf_avoids hev _)) fun definitions => ?_
    refine .bind .get fun machine => ?_
    split
    · exact .pure _
    · refine .throw fun kind watching hkind => ?_
      cases hkind
      exact unassembled watching

/-- A stage within a confinement that excludes the faults. -/
theorem runWith_avoidsOn (excludes : K.Excludes kind) (unassembled : kind ≠ .assembly)
    (hall : ∀ scope, K.isGlobals scope) (hev : ev.Avoids (some kind)) (same : Evaluator.Agree K [] ev ev)
    {stage : Stage} (admitted : stage.Admitted K.code) :
    AvoidsOn (Machine.Confined K) (some kind) (stage.runWith ev) := by
  have steps := Confinement.stageSteps same hall
  cases stage with
  | runModule code =>
    refine .bind (runModuleWith_avoidsOn steps admitted fun site => ?_)
      (runModuleWith_agree steps admitted) fun _ _ => .of_avoids (.pure _)
    exact excludes.module hev same (admitted site) hall
  | analyseDefinitions => exact .of_avoids (analyseDefinitionsWith_avoids hev)
  | inferStub =>
    refine .bind (inferStubWith_avoidsOn (fun h => unassembled (Option.some.inj h)) hev steps
      fun code site hcode => ?_) (inferStubWith_agree steps) fun _ _ => .of_avoids (.pure _)
    exact excludes.module hev same hcode hall

/-- A session within a confinement that excludes the faults. -/
theorem session_avoids (excludes : K.Excludes kind) (unassembled : kind ≠ .assembly)
    (hall : ∀ scope, K.isGlobals scope) {stages : List Stage}
    (admitted : ∀ stage ∈ stages, stage.Admitted K.code) {m : Machine} (h : m.Confined K) (depth : Nat) :
    ∀ result ∈ (session (.atDepth depth) stages m).1, ∀ fault, result = .error fault →
      fault.Outside (some kind) := by
  induction stages generalizing m with
  | nil => nofun
  | cons stage rest ih =>
    simp only [List.forall_mem_cons] at admitted
    -- the stage ends as it does where faults of bodies are hidden
    have veiled := Evaluator.agree_veiled excludes depth []
    obtain ⟨same, between, -⟩ :=
      Stage.runWith_agree (Confinement.stageSteps veiled hall) admitted.1 m h
    intro result hresult fault hfault
    rcases List.mem_cons.mp (hresult : result ∈ (stage.runWith (.atDepth depth) m).1 :: _) with rfl | later
    · exact runWith_avoidsOn excludes unassembled hall (Evaluator.veiled_avoids kind depth)
        veiled.left admitted.1 m h fault ((congrArg Prod.fst same).trans hfault)
    · exact ih admitted.2 between result later fault hfault

end Machine

/-! ## Code all of which has a property -/

/-- The confinement to code all of whose code objects have a property, where nothing is kept. -/
def Confinement.everywhere (options : Options) (P : Code → Prop) : Confinement :=
  .ofCode options (fun _ body => ∀ inner ∈ body.nested, P inner)
    (fun hbody hliteral => Code.confined_literalAt (fun _ inner _ other hother =>
      hbody other (Code.nested_subset inner hother)) hliteral) (fun _ => True) 0

/-- Sessions on a module all of whose code objects have a property that excludes faults of a kind. -/
theorem Machine.session_avoids_everywhere {P : Code → Prop} {options : Options}
    (excludes : (Confinement.everywhere options P).Excludes kind) (unassembled : kind ≠ .assembly)
    {module : Code} (all : ∀ inner ∈ module.nested, P inner) {stages : List Stage}
    (only : ∀ code, .runModule code ∈ stages → code = module) (depth : Nat) :
    ∀ result ∈ (session (.atDepth depth) stages (.new options)).1, ∀ fault, result = .error fault →
      fault.Outside (some kind) := by
  have admitted : ∀ stage ∈ stages, stage.Admitted (Confinement.everywhere options P).code := by
    intro stage hstage
    cases stage with
    | runModule code =>
      obtain rfl := only code hstage
      exact fun _ => all
    | analyseDefinitions | inferStub => exact trivial
  exact session_avoids excludes unassembled (fun _ => trivial) admitted
    (confined_new options rfl rfl) depth

end StubInference
