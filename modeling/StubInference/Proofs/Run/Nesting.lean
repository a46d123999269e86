import StubInference.Bytecode.Builder
import StubInference.Proofs.Bytecode.Nested
import StubInference.Proofs.Run.Stages

/-!
# How deep bodies nest

A function is put on the call stack where its body is entered and taken off where the body is left,
and nothing else touches the call stack. Calls look at it first: a function that is running, or one
too many, is not called. The bodies of class statements are entered unseen.

To see where the bound on the call stack breaks, a check is made where bodies are entered. The check
ends the run in a fault of its own, so a bound that no entry breaks is one that leaves runs as they
are, whatever the fault.

## Main definitions

* `Context.Bounded` — the call stack is within its bound
* `Analysis.enter` — the check that a body is entered within the bound
* `Evaluator.checked` — the evaluator that makes a check at every entry of a body
* `Machine.StaysBounded`, `Machine.ClassBodiesStayBounded` — no entry of a body, or of the body of a
  class statement, breaks the bound

## Main results

* `Machine.staysBounded_iff` — a session stays within the bound where its class statements do, and
  then bodies nest no deeper than the bound allows
-/

namespace StubInference

open Step

/-! ## Checks -/

/-- The call stack holds no function twice, and no more functions than the options allow. -/
def Context.Bounded (ctx : Context) : Prop :=
  ctx.callStack.Nodup ∧ ctx.callStack.length ≤ max 1 ctx.options.maxCallDepth

instance (ctx : Context) : Decidable ctx.Bounded := instDecidableAnd

/-- The check that the call stack is within its bound with one more function on it. -/
def Analysis.enter (fault : Fault) (id : FunctionId) : Analysis Unit := do
  let ctx ← get
  if ¬ { ctx with callStack := id :: ctx.callStack }.Bounded then throw fault

/-- Which entries of bodies are checked. -/
inductive Checks where
  | classBodies
  | everywhere

/-- The check at the entry of the body of a function, or of a class statement. -/
def Checks.enter (checks : Checks) (fault : Fault) (isClass : Bool) (id : FunctionId) :
    Analysis Unit :=
  match checks, isClass with
  | .everywhere, _ | .classBodies, true => Analysis.enter fault id
  | .classBodies, false => pure ()

/-- The evaluator that makes checks where bodies are entered, and ends in the fault `floor` where
bodies are nested deeper than the given depth. -/
def Evaluator.checked (checks : Checks) (fault floor : Fault) : (depth : Nat) → Evaluator
  | 0 => ⟨fun _ _ _ => throw floor, fun _ _ _ => throw floor, fun _ _ => throw floor⟩
  | depth + 1 =>
    let inner := checked checks fault floor depth
    ⟨fun id function locals => do
        checks.enter fault false id
        runIn inner id function locals,
      fun id function locals => do
        checks.enter fault true id
        runIn inner id function locals,
      fun callee args => callValue inner args callee⟩

/-! ## Confinement to nothing -/

/-- The confinement that lets everything run and keeps nothing. -/
def Confinement.free (options : Options) : Confinement :=
  .ofCode options (fun _ _ => True)
    (fun _ hliteral => Code.confined_literalAt (fun _ _ _ => trivial) hliteral) (fun _ => True) 0

section Checked

variable {K : Confinement} {stack : List FunctionId}

/-- Where no function is on the call stack twice, one more is within the bound just where it may be
entered. -/
theorem Confinement.Holds.bounded_iff {ctx : Context} (h : K.Holds stack ctx) (hstack : stack.Nodup)
    (id : FunctionId) :
    { ctx with callStack := id :: ctx.callStack }.Bounded ↔ K.Enterable stack id := by
  unfold Context.Bounded Confinement.Enterable
  dsimp only
  rw [h.callStack, h.options, List.nodup_cons, List.length_cons]
  constructor
  · rintro ⟨⟨hmem, -⟩, hlen⟩
    exact ⟨hmem, by omega⟩
  · rintro ⟨hmem, hlen⟩
    exact ⟨⟨hmem, hstack⟩, by omega⟩

theorem enter_agree_of_enterable (fault : Fault) (hstack : stack.Nodup) {id : FunctionId}
    (h : K.Enterable stack id) :
    Step.Agree (K.Holds stack) (Analysis.enter fault id) (pure ()) fun _ => True := by
  intro ctx hctx
  have hpass : Analysis.enter fault id ctx = (.ok (), ctx) := by
    change (if ¬ { ctx with callStack := id :: ctx.callStack }.Bounded then throw fault
      else pure () : Analysis Unit) ctx = _
    rw [if_neg (not_not_intro ((hctx.bounded_iff hstack id).mpr h))]
    rfl
  rw [hpass]
  exact ⟨rfl, hctx, fun _ _ => trivial⟩

theorem enter_agree (fault : Fault) (hstack : stack.Nodup) (id : FunctionId) :
    Step.Agree (K.Holds stack) (Analysis.enter fault id) (Analysis.enter fault id)
      fun _ => K.Enterable stack id := by
  refine .bind .get fun ctx hctx => .ite (fun _ => .throw _) fun hpass => .pure ?_
  exact (hctx.bounded_iff hstack id).mp (Decidable.not_not.mp hpass)

end Checked

/-! ## Evaluators that agree -/

/-- Two depths that are the same or both enough for so many levels. With the same depth the floor
has to be the same too. -/
def Evaluator.Deep (floor floor' : Fault) (depth depth' levels : Nat) : Prop :=
  (depth = depth' ∧ floor = floor') ∨ (levels ≤ depth ∧ levels ≤ depth')

/-- How many functions the call stack has room for. -/
def Confinement.room (K : Confinement) (stack : List FunctionId) : Nat :=
  max 1 K.options.maxCallDepth - stack.length

theorem Confinement.Enterable.room {K : Confinement} {stack : List FunctionId} {id : FunctionId}
    (h : K.Enterable stack id) : K.room stack = K.room (id :: stack) + 1 := by
  have hlt := h.2
  simp only [Confinement.room, List.length_cons]
  omega

section Depth

variable {K : Confinement} {fault floor floor' : Fault}

/-- With an evaluator in place for one more function on the call stack, bodies that are checked at
every entry run like those that are checked in class statements only, for calls are guarded. -/
theorem Evaluator.agree_checked_bodies {inner inner' : Evaluator} {stack : List FunctionId}
    {id : FunctionId} {function : InterpretedFunction} {locals : NameMap Variable}
    (h : Evaluator.Agree K (id :: stack) inner inner') (hcode : K.code function.site function.code)
    (hglobals : K.isGlobals function.surroundings.globals)
    (hlocals : NameMap.Confined K.code locals) (hstack : stack.Nodup)
    (enterable : K.Enterable stack id) :
    Step.Agree (K.Holds stack)
      (do
        Checks.everywhere.enter fault false id
        runIn inner id function locals)
      (do
        Checks.classBodies.enter fault false id
        runIn inner' id function locals) fun _ => True :=
  .bind (enter_agree_of_enterable fault hstack enterable) fun _ _ =>
    runIn_agree h hcode hglobals hlocals

/-- Every function on the call stack takes up two levels at most, one for a hook that calls it and
one for its body. -/
theorem Evaluator.agree_checked (depth : Nat) : ∀ (depth' : Nat) {stack : List FunctionId},
    stack.Nodup →
    (Deep floor floor' depth depth' (2 * K.room stack) → ∀ id function locals,
      K.code function.site function.code → K.isGlobals function.surroundings.globals →
      NameMap.Confined K.code locals → K.Enterable stack id →
      Step.Agree (K.Holds stack) ((checked .everywhere fault floor depth).runBody id function locals)
        ((checked .classBodies fault floor' depth').runBody id function locals) fun _ => True) ∧
    (Deep floor floor' depth depth' (2 * K.room stack + 1) →
      Evaluator.Agree K stack (checked .everywhere fault floor depth)
        (checked .classBodies fault floor' depth')) := by
  -- on the levels inside; a level is used up by a body or by the hook that calls it
  induction depth with
  | zero =>
    intro depth' stack hstack
    constructor
    · rintro (⟨rfl, rfl⟩ | ⟨h, -⟩) id function locals _ _ _ enterable
      · exact .throw _
      · rw [enterable.room] at h
        omega
    · rintro (⟨rfl, rfl⟩ | ⟨h, -⟩)
      · exact ⟨fun _ _ _ _ _ _ _ => .throw _, fun _ _ _ _ _ _ => .throw _,
          fun _ _ _ _ _ _ => .throw _⟩
      · omega
  | succ depth ih =>
    intro depth' stack hstack
    cases depth' with
    | zero =>
      constructor
      · rintro (⟨h, -⟩ | ⟨-, h⟩) id function locals _ _ _ enterable
        · omega
        · rw [enterable.room] at h
          omega
      · rintro (⟨h, -⟩ | ⟨-, h⟩) <;> omega
    | succ depth' =>
      -- the evaluators inside agree once the function is on the call stack
      have inner : ∀ id, K.Enterable stack id → ∀ levels, 2 * K.room stack ≤ levels →
          Deep floor floor' (depth + 1) (depth' + 1) levels →
          Evaluator.Agree K (id :: stack) (checked .everywhere fault floor depth)
            (checked .classBodies fault floor' depth') := by
        intro id enterable levels hlevels deep
        refine (ih depth' (List.nodup_cons.mpr ⟨enterable.1, hstack⟩)).2 ?_
        have room := enterable.room
        rcases deep with ⟨h, hfloor⟩ | ⟨h, h'⟩
        · exact .inl ⟨by omega, hfloor⟩
        · exact .inr ⟨by omega, by omega⟩
      constructor
      · intro deep id function locals hcode hglobals hlocals enterable
        exact agree_checked_bodies (inner id enterable _ (Nat.le_refl _) deep) hcode hglobals
          hlocals hstack enterable
      · intro deep
        have hlevels : 2 * K.room stack ≤ 2 * K.room stack + 1 := by omega
        refine ⟨fun id function locals hcode hglobals hlocals enterable => ?_,
          fun id function locals hcode hglobals hlocals => ?_,
          fun hook cls rest args hargs hpositional => ?_⟩
        · exact agree_checked_bodies (inner id enterable _ hlevels deep) hcode hglobals hlocals
            hstack enterable
        · exact .bind (enter_agree fault hstack id) fun _ enterable =>
            runIn_agree (inner id enterable _ hlevels deep) hcode hglobals hlocals
        · refine callHook_agree ((ih depth' hstack).1 ?_) hook hargs hpositional
          rcases deep with ⟨h, hfloor⟩ | ⟨h, h'⟩
          · exact .inl ⟨by omega, hfloor⟩
          · exact .inr ⟨by omega, by omega⟩

end Depth

/-! ## Sessions within the bound -/

theorem Machine.confined_new {K : Confinement} (options : Options) (hoptions : K.options = options)
    (hbase : K.base = 0) : (Machine.new options).Confined K where
  context :=
    { heap := Builtins.confined_heap
      options := hoptions.symm
      callStack := rfl
      base := hbase ▸ Nat.zero_le _
      kept := fun scope name hkept => absurd (K.bounded scope name hkept) (by omega) }
  code := fun _ _ h => (by cases h)

namespace Machine

/-- No body is entered beyond the bound on the call stack: a session goes the same where every entry
is checked. -/
def StaysBounded (options : Options) (stages : List Stage) : Prop :=
  ∀ fault, session (.checked .everywhere fault (.inconsistent .unbounded) depthLimit) stages
    (.new options) = session interpreter stages (.new options)

/-- No body of a class statement is entered beyond the bound. -/
def ClassBodiesStayBounded (options : Options) (stages : List Stage) : Prop :=
  ∀ fault, session (.checked .classBodies fault (.inconsistent .unbounded) depthLimit) stages
    (.new options) = session interpreter stages (.new options)

/-- How deep bodies may be nested within the bound. -/
def levels (options : Options) : Nat := 2 * max 1 options.maxCallDepth + 1

theorem session_checked (options : Options) (stages : List Stage) (fault : Fault)
    {floor floor' : Fault} {depth depth' : Nat}
    (deep : Evaluator.Deep floor floor' depth depth' (levels options)) :
    session (.checked .everywhere fault floor depth) stages (.new options) =
      session (.checked .classBodies fault floor' depth') stages (.new options) := by
  have hev : Evaluator.Agree (.free options) [] (.checked .everywhere fault floor depth)
      (.checked .classBodies fault floor' depth') :=
    (Evaluator.agree_checked (K := .free options) depth depth' List.nodup_nil).2 deep
  have admitted : ∀ stage ∈ stages, stage.Admitted (Confinement.free options).code := by
    intro stage _
    cases stage with
    | runModule code => exact fun _ => trivial
    | analyseDefinitions | inferStub => exact trivial
  exact (session_agree (Confinement.stageSteps hev fun _ => trivial) admitted
    (confined_new options rfl rfl)).1

/-- Calls are guarded, so a session stays within the bound on the call stack where the bodies of its
class statements do. Bodies are then nested so deep at most as the bound allows: what lies deeper
down makes no difference. -/
theorem staysBounded_iff (options : Options) (stages : List Stage) :
    (StaysBounded options stages ↔ ClassBodiesStayBounded options stages) ∧
      ∀ (fault floor floor' : Fault) (more more' : Nat),
        session (.checked .classBodies fault floor (levels options + more)) stages (.new options) =
          session (.checked .classBodies fault floor' (levels options + more')) stages
            (.new options) := by
  constructor
  · have same (fault : Fault) :
        session (.checked .everywhere fault (.inconsistent .unbounded) depthLimit) stages
            (.new options) =
          session (.checked .classBodies fault (.inconsistent .unbounded) depthLimit) stages
            (.new options) :=
      session_checked options stages fault (.inl ⟨rfl, rfl⟩)
    constructor
    · exact fun h fault => (same fault).symm.trans (h fault)
    · exact fun h fault => (same fault).trans (h fault)
  · intro fault floor floor' more more'
    have enough (floor floor' : Fault) (more more' : Nat) :
        session (.checked .everywhere fault floor (levels options + more)) stages (.new options) =
          session (.checked .classBodies fault floor' (levels options + more')) stages
            (.new options) :=
      session_checked options stages fault
        (.inr ⟨Nat.le_add_right (levels options) more, Nat.le_add_right (levels options) more'⟩)
    exact (enough floor floor more more).symm.trans (enough floor floor' more more')

/-! ### Classes in classes -/

/-- The code of a class in a class in a module. -/
def nestedClasses : Code :=
  let inner := (CodeBuilder.new "B").returnNone.build
  let outer := ((CodeBuilder.new "A").defClass inner "B" []).returnNone.build
  (CodeBuilder.module.defClass outer "A" []).returnNone.build

/-- With room for one function on the call stack the body of the inner class breaks the bound, though
no body is entered by a call. -/
theorem nestedClasses_not_staysBounded :
    ¬ StaysBounded { Options.standard with maxCallDepth := 1 } [.runModule nestedClasses] := by
  intro h
  have results := congrArg (fun session => session.1.map (·.isOk)) (h (.inconsistent .nullCall))
  exact absurd results (by decide +kernel)

end Machine

end StubInference
