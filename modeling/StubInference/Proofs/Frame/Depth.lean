import StubInference.Proofs.Frame.Joins
import StubInference.Proofs.Run.Faults

/-!
# The depth of the operand stack

How many operands an instruction needs, takes and puts is fixed by the instruction, whatever the
values are, with one exception: a call with an expanded sequence takes the empty marker below the
callee only where there is one. Calls run other frames, never on the stack of the frame that calls.

## Main definitions

* `StackUse`, `Opcode.stackUse?` — how an instruction uses the stack
* `FrameStep.Spends` — a step from a stack of a given depth to one of a known depth
* `FrameStep.depthAt` — the depth at which a block is about to be entered

## Main results

* `FrameStep.perform_spends` — an instruction that leads nowhere else spends what is fixed for it
* `FrameStep.addPending_depth`, `FrameStep.enter_depth` — what an edge does to the depths of entries
-/

namespace StubInference

open Step

/-- How an instruction uses the stack: how many entries have to be there, how many of them it takes,
and how many it puts there. -/
structure StackUse where
  least : Nat
  taken : Nat
  put : Nat

/-- The use of an instruction that asks for the entry at a place, the top being one. -/
def StackUse.atPlace (use : StackUse) (place : Nat) : Option StackUse :=
  if place = 0 then none else some use

/-- How an instruction uses the stack, if that is fixed. An entry at depth zero is refused on every
stack, so an instruction that asks for one has no use either. A conditional jump and the end of a
loop take their operand before they leave. -/
def Opcode.stackUse? : Opcode → Option StackUse
  | nop | resume | precall | cache | copyFreeVars _ | deleteName _ | deleteFast _ | makeCell _
  | kwNames _ | jumpForward _ | jumpBackward _ => some ⟨0, 0, 0⟩
  | pushNull | loadConst _ | loadName _ | loadFast _ | loadClosure _ | loadDeref _
  | loadBuildClass => some ⟨0, 0, 1⟩
  | loadGlobal _ withNull => some ⟨0, 0, if withNull then 2 else 1⟩
  | popTop | storeName _ | storeFast _ | storeGlobal _ | storeDeref _ | popJumpIfFalse _
  | popJumpIfTrue _ | popJumpIfNone _ | popJumpIfNotNone _ | returnValue => some ⟨1, 1, 0⟩
  | loadAttr _ | listToTuple | unaryNot | unaryNegative | getIter => some ⟨1, 1, 1⟩
  | loadMethod _ | forIter _ => some ⟨1, 1, 2⟩
  | storeAttr _ => some ⟨2, 2, 0⟩
  | binaryOp _ | compareOp _ | isOp _ | containsOp _ | importName _ => some ⟨2, 2, 1⟩
  | importFrom _ => some ⟨1, 0, 1⟩
  | copy place => StackUse.atPlace ⟨place, 0, 1⟩ place
  | swap place => StackUse.atPlace ⟨place, 0, 0⟩ place
  | listAppend place | listExtend place | dictMerge place | dictUpdate place =>
    StackUse.atPlace ⟨place + 1, 1, 0⟩ place
  | buildTuple count | buildList count => some ⟨count, count, 1⟩
  | buildMap count => some ⟨count * 2, count * 2, 1⟩
  | buildConstKeyMap count => some ⟨count + 1, count + 1, 1⟩
  | makeFunction flags =>
    let taken := 1 + (FrameStep.flagged flags 8).toNat + (FrameStep.flagged flags 4).toNat +
      (FrameStep.flagged flags 2).toNat + (FrameStep.flagged flags 1).toNat
    some ⟨taken, taken, 1⟩
  | call count => some ⟨count + 2, count + 2, 1⟩
  | callFunctionEx _ => Option.none
  | raiseVarargs count => some ⟨count, count, 0⟩

/-- An instruction may lead from the one depth to the other. -/
def Opcode.Spent (op : Opcode) (before after : Nat) : Prop :=
  ∀ use, op.stackUse? = some use → after = before - use.taken + use.put

theorem Opcode.Spent.of {op : Opcode} {use : StackUse} {before after : Nat}
    (h : op.stackUse? = some use) (spent : after = before - use.taken + use.put) :
    op.Spent before after := by
  intro use' h'
  obtain rfl : use = use' := Option.some.inj (h.symm.trans h')
  exact spent

theorem Opcode.Spent.of_none {op : Opcode} {before after : Nat} (h : op.stackUse? = none) :
    op.Spent before after := fun _ h' => nomatch h.symm.trans h'

theorem Opcode.Spent.atPlace {op : Opcode} {use : StackUse} {place before after : Nat}
    (h : op.stackUse? = use.atPlace place) (spent : after = before - use.taken + use.put) :
    op.Spent before after := by
  unfold StackUse.atPlace at h
  split at h
  · exact .of_none h
  · exact .of h spent

/-- How many keys an instruction takes, each with a value. -/
def Opcode.keyCount? : Opcode → Option Nat
  | buildMap count => some count
  | _ => none

/-- What an instruction computes of its operand is a word. -/
def Opcode.InWords (op : Opcode) : Prop := ∀ count ∈ op.keyCount?, count * 2 < twoTo 64

instance (op : Opcode) : Decidable op.InWords :=
  inferInstanceAs (Decidable (∀ count ∈ op.keyCount?, count * 2 < twoTo 64))

/-- Where faults of the stack are watched for, the stack is deep enough for an instruction. Where
panics are, the instruction leads to none, which is up to the code that it finds for one that makes a
function. -/
structure Opcode.Fits (watched : Option Fault.Kind) (op : Opcode) (depth : Nat) : Prop where
  use : watched = some .stack → ∃ use, op.stackUse? = some use ∧ use.least ≤ depth
  words : watched = some .word → op.InWords ∧ ∀ flags, op ≠ .makeFunction flags

theorem Opcode.Fits.of_none {op : Opcode} {depth : Nat} : op.Fits none depth := ⟨nofun, nofun⟩

theorem Opcode.Fits.least {watched : Option Fault.Kind} {op : Opcode} {depth : Nat} {use : StackUse}
    (fits : op.Fits watched depth) (h : op.stackUse? = some use) :
    watched = some .stack → use.least ≤ depth := by
  intro stack
  obtain ⟨use', h', least⟩ := fits.use stack
  obtain rfl : use' = use := Option.some.inj (h'.symm.trans h)
  exact least

theorem Opcode.Fits.unwatched {watched : Option Fault.Kind} {op : Opcode} {depth : Nat}
    (fits : op.Fits watched depth) (h : op.stackUse? = none) : watched ≠ some .stack := by
  intro stack
  obtain ⟨use, h', -⟩ := fits.use stack
  exact nomatch h.symm.trans h'

theorem Opcode.Fits.atPlace {watched : Option Fault.Kind} {op : Opcode} {depth place : Nat}
    {use : StackUse} (fits : op.Fits watched depth) (h : op.stackUse? = use.atPlace place) :
    watched = some .stack → 1 ≤ place ∧ use.least ≤ depth := by
  intro stack
  unfold StackUse.atPlace at h
  split at h
  · exact absurd stack (fits.unwatched h)
  · exact ⟨by omega, fits.least h stack⟩

/-- A frame that runs the same block of the same code, with the same entry states. -/
structure Frame.Still (here there : Frame) : Prop where
  code : there.code = here.code
  block : there.block = here.block
  pending : there.pending = here.pending

theorem Frame.Still.refl (a : Frame) : a.Still a := ⟨rfl, rfl, rfl⟩

namespace FrameStep

variable {α β : Type} {watched : Option Fault.Kind} {base : Frame} {depth : Nat} {ev : Evaluator}
  {op : Opcode}

/-- A step from a stack of the given depth. Where it succeeds the depth behind it has the property,
and otherwise it ends in no fault of the kind watched for. -/
def Spends (watched : Option Fault.Kind) (base : Frame) (depth : Nat) (m : FrameStep α)
    (Q : Nat → Prop) : Prop :=
  ∀ s : Execution, base.Still s.frame → s.frame.state.stack.length = depth →
    base.Still (m s).2.frame ∧
      (∀ a, (m s).1 = .ok a → Q (m s).2.frame.state.stack.length) ∧
      ∀ fault, (m s).1 = .error fault → fault.Outside watched

namespace Spends

variable {m : FrameStep α} {f : α → FrameStep β} {Q R : Nat → Prop} {behind : Nat}

theorem pure {a : α} (h : Q depth) : Spends watched base depth (Pure.pure a) Q :=
  fun _ still hs => ⟨still, fun _ _ => hs.symm ▸ h, nofun⟩

theorem throw {fault : Fault} (h : fault.Outside watched) :
    Spends watched base depth (throw fault : FrameStep α) Q := by
  refine fun s still hs => ⟨still, nofun, ?_⟩
  rintro _ ⟨⟩
  exact h

theorem bind (first : Spends watched base depth m Q)
    (second : ∀ a d, Q d → Spends watched base d (f a) R) :
    Spends watched base depth (m >>= f) R := by
  intro s still hs
  obtain ⟨still, ok, error⟩ := first s still hs
  rw [bind_apply]
  rcases hm : m s with ⟨_ | a, t⟩ <;> rw [hm] at still ok error
  · refine ⟨still, nofun, ?_⟩
    rintro _ ⟨⟩
    exact error _ rfl
  · exact second a _ (ok a rfl) t still rfl

/-- A step behind one that leads to a known depth. -/
theorem andThen (first : Spends watched base depth m (· = behind))
    (second : ∀ a, Spends watched base behind (f a) R) :
    Spends watched base depth (m >>= f) R :=
  first.bind fun a _ h => h ▸ second a

theorem mono (h : Spends watched base depth m Q) (weaken : ∀ d, Q d → R d) :
    Spends watched base depth m R := fun s still hs =>
  have ⟨still, ok, error⟩ := h s still hs
  ⟨still, fun a ha => weaken _ (ok a ha), error⟩

theorem ite {c : Prop} [Decidable c] {m' : FrameStep α} (hpos : c → Spends watched base depth m Q)
    (hneg : ¬ c → Spends watched base depth m' Q) :
    Spends watched base depth (if c then m else m') Q := by
  split
  case isTrue h => exact hpos h
  case isFalse h => exact hneg h

end Spends

/-! ## Steps that leave the stack alone -/

theorem spends_get : Spends watched base depth (get : FrameStep Execution) (· = depth) :=
  fun _ still hs => ⟨still, fun _ _ => hs, nofun⟩

theorem spends_analysis {m : Analysis α} (h : Step.Avoids watched m) :
    Spends watched base depth (analysis m) (· = depth) :=
  fun s still hs => ⟨still, fun _ _ => hs, h s.context⟩

theorem spends_fromFrame (read : Frame → α) :
    Spends watched base depth (fromFrame read) (· = depth) :=
  fun _ still hs => ⟨still, fun _ _ => hs, nofun⟩

theorem spends_fromHeap (read : Heap → α) :
    Spends watched base depth (fromHeap read) (· = depth) :=
  fun _ still hs => ⟨still, fun _ _ => hs, nofun⟩

theorem spends_check {result : Except Fault α} (h : Fault.Plain result) :
    Spends watched base depth (check result) (· = depth) := by
  cases result with
  | error fault => exact .throw (.of_kind? (Fault.isPlain_iff.mp (h fault rfl)).1)
  | ok a => exact .pure rfl

/-- A change of the frame that the stack and the entry states have no part in. -/
theorem spends_modifyFrame {change : Frame → Frame} (still : ∀ frame : Frame, frame.Still (change frame))
    (stack : ∀ frame : Frame, (change frame).state.stack = frame.state.stack) :
    Spends watched base depth (modifyFrame change) (· = depth) := by
  intro s hstill hs
  have h := still s.frame
  refine ⟨⟨h.code.trans hstill.code, h.block.trans hstill.block, h.pending.trans hstill.pending⟩,
    fun _ _ => ?_, nofun⟩
  change (change s.frame).state.stack.length = depth
  rw [stack, hs]

theorem spends_modifyLocals (change : NameMap Variable → NameMap Variable) :
    Spends watched base depth (modifyLocals change) (· = depth) :=
  spends_modifyFrame (fun _ => ⟨rfl, rfl, rfl⟩) fun _ => rfl

theorem spends_modifyGlobals (change : NameMap Variable → NameMap Variable) :
    Spends watched base depth (modifyGlobals change) (· = depth) :=
  (spends_fromFrame _).andThen fun _ => spends_analysis (Analysis.avoids_withHeap _)

theorem spends_modifyCells (change : NameMap Variable → NameMap Variable) :
    Spends watched base depth (modifyCells change) (· = depth) :=
  (spends_fromFrame _).andThen fun _ => spends_analysis (Analysis.avoids_withHeap _)

theorem spends_syncPosition : Spends watched base depth syncPosition (· = depth) :=
  spends_get.andThen fun _ => spends_analysis (.modify _)

/-! ## The operand stack -/

theorem spends_modifyState {change : BlockState → BlockState} {behind : Nat}
    (h : ∀ state : BlockState, state.stack.length = depth → (change state).stack.length = behind) :
    Spends watched base depth (modifyState change) (· = behind) :=
  fun s still hs => ⟨⟨still.code, still.block, still.pending⟩, fun _ _ => h s.frame.state hs, nofun⟩

/-- A change of the stack whatever its depth was. -/
theorem spends_change (change : BlockState → BlockState) :
    Spends watched base depth (modifyState change) fun _ => True :=
  fun _ still _ => ⟨⟨still.code, still.block, still.pending⟩, fun _ _ => trivial, nofun⟩

theorem spends_push (v : Variable) : Spends watched base depth (push v) (· = depth + 1) :=
  spends_modifyState fun _ h => congrArg (· + 1) h

theorem spends_pushValue (a : Value) : Spends watched base depth (pushValue a) (· = depth + 1) :=
  (spends_fromFrame _).andThen fun _ => spends_push _

theorem spends_pop (op : Opcode) (room : watched = some .stack → 1 ≤ depth) :
    Spends watched base depth (pop op) (· = depth - 1) := by
  intro s still hs
  rw [pop_apply]
  cases h : s.frame.state.stack with
  | nil =>
    refine ⟨still, nofun, ?_⟩
    rintro _ ⟨⟩ kind hkind
    rw [h] at hs
    rintro ⟨⟩
    have := room hkind
    simp only [List.length_nil] at hs
    omega
  | cons top rest =>
    refine ⟨⟨still.code, still.block, still.pending⟩, fun _ _ => ?_, nofun⟩
    rw [h] at hs
    simp only [Execution.withState_state]
    simp only [List.length_cons] at hs
    omega

theorem spends_popMany (count : Nat) (op : Opcode) (room : watched = some .stack → count ≤ depth) :
    Spends watched base depth (popMany count op) (· = depth - count) := by
  intro s still hs
  rw [popMany_apply]
  split
  case isTrue short =>
    refine ⟨still, nofun, ?_⟩
    rintro _ ⟨⟩ kind hkind ⟨⟩
    have := room hkind
    omega
  case isFalse =>
    refine ⟨⟨still.code, still.block, still.pending⟩, fun _ _ => ?_, nofun⟩
    simp only [Execution.withState_state, List.length_drop, hs]

theorem spends_popFlagged (flags bit : UInt8) (op : Opcode)
    (room : watched = some .stack → (flagged flags bit).toNat ≤ depth) :
    Spends watched base depth (popFlagged flags bit op)
      (· = depth - (flagged flags bit).toNat) := by
  unfold popFlagged
  cases h : flagged flags bit with
  | false => exact .pure rfl
  | true =>
    rw [h] at room
    rw [if_pos rfl, map_eq_pure_bind]
    exact (spends_pop op room).andThen fun _ => .pure rfl

/-- The entry at a depth has to be there, and none is at depth zero. -/
theorem spends_peek (place : Nat) (op : Opcode)
    (room : watched = some .stack → 1 ≤ place ∧ place ≤ depth) :
    Spends watched base depth (peek place op) (· = depth) := by
  have refuse (full : watched ≠ some .stack) :
      Spends watched base depth (underflow op : FrameStep Variable) (· = depth) := by
    refine (spends_fromFrame _).andThen fun _ => .throw ?_
    rintro kind hkind ⟨⟩
    exact full hkind
  unfold peek
  intro s still hs
  rw [bind_apply]
  simp only [stack, fromFrame_apply]
  cases place with
  | zero => exact refuse (fun h => absurd (room h).1 (by omega)) s still hs
  | succ above =>
    dsimp only
    cases found : s.frame.state.stack[above]? with
    | some v =>
      have answer : Spends watched base depth (pure v : FrameStep Variable) (· = depth) := .pure rfl
      exact answer s still hs
    | none =>
      refine refuse (fun h => ?_) s still hs
      have := (room h).2
      rw [List.getElem?_eq_none_iff] at found
      omega

theorem spends_replace (place : Nat) (v : Variable) :
    Spends watched base depth (replace place v) (· = depth) :=
  spends_modifyState fun _ h => by simpa using h

/-! ## Names -/

theorem spends_unbound (name : String) : Spends watched base depth (unbound name) (· = depth) :=
  (spends_analysis (Analysis.avoids_record _)).andThen fun _ => .pure rfl

theorem spends_storeLocal (name : String) (v : Variable) :
    Spends watched base depth (storeLocal name v) (· = depth) := by
  refine (spends_fromFrame _).andThen fun _ => .ite (fun _ => ?_) fun _ => spends_modifyLocals _
  exact (spends_modifyGlobals _).andThen fun _ => spends_modifyLocals _

theorem spends_deleteLocal (name : String) :
    Spends watched base depth (deleteLocal name) (· = depth) :=
  (spends_modifyLocals _).andThen fun _ => (spends_fromFrame _).andThen fun _ =>
    .ite (fun _ => spends_modifyGlobals _) fun _ => .pure rfl

theorem spends_storeGlobal (name : String) (v : Variable) :
    Spends watched base depth (storeGlobal name v) (· = depth) := by
  refine (spends_fromFrame _).andThen fun _ => .ite (fun _ => ?_) fun _ => spends_modifyGlobals _
  exact (spends_modifyLocals _).andThen fun _ => spends_modifyGlobals _

theorem spends_loadGlobal (name : String) :
    Spends watched base depth (loadGlobal name) (· = depth) := by
  refine (spends_fromFrame _).andThen fun _ => (spends_fromHeap _).andThen fun _ => ?_
  split
  · exact .pure rfl
  · split
    · exact .pure rfl
    · exact spends_unbound name

theorem spends_loadFast (name : String) :
    Spends watched base depth (loadFast name) (· = depth) := by
  refine (spends_fromFrame _).andThen fun _ => ?_
  split
  · exact .pure rfl
  · exact spends_unbound name

theorem spends_loadName (name : String) :
    Spends watched base depth (loadName name) (· = depth) := by
  refine (spends_fromFrame _).andThen fun _ => ?_
  split
  · exact .pure rfl
  · exact spends_loadGlobal name

theorem spends_loadDeref (name : String) :
    Spends watched base depth (loadDeref name) (· = depth) := by
  refine spends_get.andThen fun _ => spends_get.andThen fun _ => ?_
  dsimp only
  split
  · exact .pure rfl
  · exact spends_unbound name

theorem spends_ownCell? (name : String) :
    Spends watched base depth (ownCell? name) (· = depth) :=
  (spends_fromFrame _).andThen fun _ => (spends_fromHeap _).andThen fun _ => .pure rfl

theorem spends_loadAttribute (object : Variable) (name : String) :
    Spends watched base depth (loadAttribute object name) (· = depth) := by
  -- the values of an object are looked up one after the other
  have load (values : List Value) :
      Spends watched base depth (loadAttribute.load name values) (· = depth) := by
    induction values with
    | nil => exact .pure rfl
    | cons value rest ih =>
      unfold loadAttribute.load
      refine spends_get.andThen fun s => ?_
      dsimp only
      split
      · exact .andThen (.pure rfl) fun _ => ih.andThen fun _ => .pure rfl
      · refine (spends_analysis (Analysis.avoids_record _)).andThen fun _ => ?_
        exact .andThen (.pure rfl) fun _ => ih.andThen fun _ => .pure rfl
  exact (load object.values).andThen fun _ => .pure rfl

/-! ## Functions and calls -/

theorem spends_constant (index : Nat) :
    Spends watched base depth (constant index) (· = depth) :=
  spends_get.andThen fun _ => spends_check (Code.literalAt_plain _ _ _)

/-- A step behind a computation in machine words, where panics are not watched for or there is none. -/
theorem Spends.ofPanic {result : Except Panic α} {f : α → FrameStep β} {Q : Nat → Prop}
    (fine : watched = some .word → result.isOk = true)
    (rest : ∀ a, result = .ok a → Spends watched base depth (f a) Q) :
    Spends watched base depth (check (Fault.ofPanic result) >>= f) Q := by
  cases result with
  | ok a => exact rest a rfl
  | error cause =>
    refine .bind (Q := fun _ => False) (.throw fun kind watching hkind => ?_) fun _ _ h => h.elim
    cases hkind
    exact nomatch fine watching

theorem spends_functionOf {codeVar : Variable} (defaults : List Variable)
    (kwDefaults : NameMap Variable)
    (reads : watched = some .word → ∀ site code, codeVar.atomic = .ok (.literal (.code site code)) →
      code.checkLayout.isOk = true) :
    Spends watched base depth (functionOf codeVar defaults kwDefaults) (· = depth) := by
  unfold functionOf
  cases hvalue : codeVar.atomic with
  | error fault =>
    exact .throw (.of_kind? (Fault.isPlain_iff.mp (codeVar.atomic_plain fault hvalue)).1)
  | ok value =>
    rw [show (check (.ok value) : FrameStep Value) = pure value from rfl, pure_bind]
    split
    · refine .ofPanic (fun watching => reads watching _ _ hvalue) fun _ _ => ?_
      refine (spends_fromFrame _).andThen fun around => ?_
      refine (spends_analysis (Analysis.avoids_withHeap _)).andThen fun id => ?_
      exact .andThen (spends_modifyFrame (fun _ => ⟨rfl, rfl, rfl⟩) fun _ => rfl) fun _ => .pure rfl
    · exact .throw (.of_kind? rfl)

theorem spends_makeFunction (flags : UInt8) (fits : (Opcode.makeFunction flags).Fits watched depth) :
    Spends watched base depth (makeFunction flags (.makeFunction flags))
      ((Opcode.makeFunction flags).Spent depth <| · + 1) := by
  have least := fits.least rfl
  dsimp only at least
  refine (spends_pop _ fun h => have := least h; by omega).andThen fun codeVar => ?_
  refine (spends_popFlagged flags 8 _ fun h => have := least h; by omega).andThen fun _ => ?_
  refine (spends_popFlagged flags 4 _ fun h => have := least h; by omega).andThen fun _ => ?_
  refine (spends_popFlagged flags 2 _ fun h => have := least h; by omega).andThen fun kw => ?_
  refine (spends_check ?_).andThen fun kwDefaults => ?_
  · cases kw with
    | none => exact .ok _
    | some v => exact keywordDefaults_plain v
  refine (spends_popFlagged flags 1 _ fun h => have := least h; by omega).andThen fun var => ?_
  refine (spends_check ?_).andThen fun defaults => ?_
  · cases var with
    | none => exact .ok _
    | some v => exact positionalDefaults_plain v
  refine (spends_functionOf defaults kwDefaults fun watching =>
    absurd rfl ((fits.words watching).2 flags)).mono fun d hd => .of rfl ?_
  dsimp only
  omega

theorem spends_callOn (hev : ev.Avoids watched) (callee : Variable) (args : Args) :
    Spends watched base depth (callOn ev callee args) (· = depth + 1) := by
  refine spends_get.andThen fun s => ?_
  refine (spends_analysis (callVariable_avoids hev callee args)).andThen fun result => ?_
  refine spends_syncPosition.andThen fun _ => .ite (fun _ => ?_) fun _ => spends_push result
  exact .andThen (spends_modifyFrame (fun _ => ⟨rfl, rfl, rfl⟩) fun _ => rfl) fun _ =>
    spends_push result

theorem spends_expectNames (index : Nat) :
    Spends watched base depth (expectNames index) (· = depth) := by
  refine (spends_constant index).andThen fun literal => ?_
  cases (Literal.Shape.list .str).read literal with
  | error problem =>
    exact Spends.bind (Q := fun _ => False) (.throw (.of_kind? rfl)) fun _ _ h => h.elim
  | ok names =>
    refine .andThen (.pure rfl) fun names => (spends_fromFrame _).andThen fun operands => ?_
    refine (spends_check (Operands.expectNames_plain _ _)).andThen fun after => ?_
    exact spends_modifyFrame (fun _ => ⟨rfl, rfl, rfl⟩) fun _ => rfl

theorem spends_callPlain (hev : ev.Avoids watched) (count : Nat)
    (fits : (Opcode.call count).Fits watched depth) :
    Spends watched base depth (callPlain ev count (.call count))
      ((Opcode.call count).Spent depth) := by
  have least := fits.least rfl
  dsimp only at least
  refine (spends_popMany count _ fun h => have := least h; by omega).andThen fun values => ?_
  refine (spends_pop _ fun h => have := least h; by omega).andThen fun upper => ?_
  refine (spends_pop _ fun h => have := least h; by omega).andThen fun lower => ?_
  refine (spends_fromFrame _).andThen fun operands => ?_
  refine .andThen (spends_modifyFrame (fun _ => ⟨rfl, rfl, rfl⟩) fun _ => rfl) fun _ => ?_
  refine (spends_check (Operands.arguments_plain _ _)).andThen fun args => ?_
  refine (spends_callOn hev _ args).mono fun d hd => .of rfl ?_
  dsimp only
  omega

/-- How much an expanded call takes depends on what lies below the callee. -/
theorem spends_callExpanded (hev : ev.Avoids watched) (flags : UInt8) (op : Opcode)
    (unwatched : watched ≠ some .stack) :
    Spends watched base depth (callExpanded ev flags op) fun _ => True := by
  have anyway {need d : Nat} : watched = some .stack → need ≤ d := fun h => absurd h unwatched
  refine (spends_popFlagged flags 1 op anyway).andThen fun starStar => ?_
  refine (spends_pop op anyway).andThen fun star => (spends_pop op anyway).andThen fun callee => ?_
  refine (spends_fromFrame _).andThen fun vs => ?_
  have finish (d : Nat) : Spends watched base d (do
      let operands ← fromFrame (·.operands)
      let args ← check (operands.expanded star starStar)
      callOn ev callee args) fun _ => True :=
    (spends_fromFrame _).andThen fun _ => (spends_check (Operands.expanded_plain _ _ _)).andThen
      fun args => (spends_callOn hev callee args).mono fun _ _ => trivial
  dsimp only
  split
  · refine .ite (fun _ => ?_) fun _ => finish _
    -- the stack was read before, so that its depth is not that of the rest
    exact .bind (spends_change _) fun _ d _ => finish d
  · exact finish _

/-! ## Instructions -/

/-- An instruction that leads to no other block. -/
theorem perform_spends (hev : ev.Avoids watched) (jumps : op.jumpTarget? = none)
    (fits : op.Fits watched depth) :
    Spends watched base depth (perform ev op) (op.Spent depth) := by
  -- what an instruction needs is what is fixed for it, and what it is made of adds up to it
  have one (use : op.stackUse? = some ⟨1, 1, 0⟩) (m : Variable → FrameStep Unit)
      (hm : ∀ v, Spends watched base (depth - 1) (m v) (· = depth - 1)) :
      Spends watched base depth (do m (← pop op)) (op.Spent depth) :=
    (spends_pop op (fits.least use)).andThen fun v => (hm v).mono fun _ h => .of use h
  have load {m : FrameStep Variable} (use : op.stackUse? = some ⟨0, 0, 1⟩)
      (hm : Spends watched base depth m (· = depth)) :
      Spends watched base depth (do push (← m)) (op.Spent depth) :=
    hm.andThen fun _ => (spends_push _).mono fun _ h => .of use h
  have change (place : Nat) (build : Variable → Variable → Variable)
      (use : op.stackUse? = StackUse.atPlace ⟨place + 1, 1, 0⟩ place) :
      Spends watched base depth (do
        let item ← pop op
        let old ← peek place op
        replace place (build old item)) (op.Spent depth) := by
    have room := fits.atPlace use
    dsimp only at room
    refine (spends_pop op fun h => have := room h; by omega).andThen fun item => ?_
    refine (spends_peek place op fun h => have := room h; by omega).andThen fun old => ?_
    exact (spends_replace place _).mono fun _ h => .atPlace use h
  cases op with
  | forIter | popJumpIfFalse | popJumpIfTrue | popJumpIfNone | popJumpIfNotNone | jumpForward
  | jumpBackward => cases jumps
  | nop | resume | precall | cache | copyFreeVars => exact .pure (.of rfl rfl)
  | pushNull => exact (spends_pushValue _).mono fun _ h => .of rfl h
  | popTop => exact (spends_pop _ (fits.least rfl)).andThen fun _ => .pure (.of rfl rfl)
  | copy place =>
    exact (spends_peek place _ (fits.atPlace rfl)).andThen fun _ =>
      (spends_push _).mono fun _ h => .atPlace rfl h
  | swap place =>
    have room := fits.atPlace rfl
    dsimp only at room
    refine (spends_peek 1 _ fun h => have := room h; by omega).andThen fun top => ?_
    refine (spends_peek place _ room).andThen fun other => (spends_replace _ _).andThen fun _ => ?_
    exact (spends_replace _ _).mono fun _ h => .atPlace rfl h
  | loadConst index =>
    exact (spends_constant index).andThen fun _ => (spends_pushValue _).mono fun _ h => .of rfl h
  | loadName name => exact load rfl (spends_loadName name)
  | storeName name | storeFast name => exact one rfl _ fun v => spends_storeLocal name v
  | storeGlobal name => exact one rfl _ fun v => spends_storeGlobal name v
  | storeDeref name => exact one rfl _ fun v => spends_modifyCells _
  | deleteName name | deleteFast name => exact (spends_deleteLocal name).mono fun _ h => .of rfl h
  | loadGlobal name withNull =>
    cases withNull with
    | false => exact load rfl (spends_loadGlobal name)
    | true =>
      exact (spends_pushValue _).andThen fun _ => (spends_loadGlobal name).andThen fun _ =>
        (spends_push _).mono fun _ h => .of rfl h
  | loadFast name => exact load rfl (spends_loadFast name)
  | makeCell name =>
    refine (spends_fromFrame _).andThen fun names => ?_
    split
    · exact (spends_modifyCells _).mono fun _ h => .of rfl h
    · exact .pure (.of rfl rfl)
  | loadClosure name =>
    exact (spends_ownCell? name).andThen fun _ => (spends_push _).mono fun _ h => .of rfl h
  | loadDeref name => exact load rfl (spends_loadDeref name)
  | loadAttr name =>
    refine (spends_pop _ (fits.least rfl)).andThen fun object => ?_
    exact (spends_loadAttribute object name).andThen fun _ =>
      (spends_push _).mono fun _ h => .of rfl h
  | loadMethod name =>
    refine (spends_pop _ (fits.least rfl)).andThen fun object => ?_
    refine (spends_loadAttribute object name).andThen fun _ => (spends_pushValue _).andThen fun _ => ?_
    exact (spends_push _).mono fun _ h => .of rfl h
  | storeAttr name =>
    have least := fits.least rfl
    dsimp only at least
    refine (spends_pop _ fun h => have := least h; by omega).andThen fun _ => ?_
    refine (spends_pop _ fun h => have := least h; by omega).andThen fun _ => ?_
    exact (spends_analysis (Analysis.avoids_withHeap _)).mono fun d h => .of rfl (by dsimp only; omega)
  | loadBuildClass =>
    simp only [perform]
    split
    · exact (spends_pushValue _).mono fun _ h => .of rfl h
    · exact .throw (.of_kind? rfl)
  | buildTuple count | buildList count =>
    exact (spends_popMany count _ (fits.least rfl)).andThen fun _ =>
      (spends_pushValue _).mono fun _ h => .of rfl h
  | buildMap count =>
    refine .ofPanic (fun watching => ?_) fun size hsize => ?_
    · have word : count * 2 < twoTo 64 := (fits.words watching).1 count rfl
      rw [Panic.multiply, if_pos word]
      rfl
    · obtain ⟨-, rfl⟩ := Panic.multiply_eq_ok.mp hsize
      exact (spends_popMany (count * 2) _ (fits.least rfl)).andThen fun _ =>
        (spends_pushValue _).mono fun _ h => .of rfl h
  | buildConstKeyMap count =>
    have least := fits.least rfl
    dsimp only at least
    refine (spends_pop _ fun h => have := least h; by omega).andThen fun keys => ?_
    refine (spends_popMany count _ fun h => have := least h; by omega).andThen fun values => ?_
    refine (spends_check (keyedBy_plain keys values)).andThen fun _ => ?_
    exact (spends_pushValue _).mono fun d h => .of rfl (by dsimp only; omega)
  | listAppend place => exact change place (fun list item => (appended list item).var) rfl
  | listExtend place => exact change place (fun list more => (extended list more).var) rfl
  | dictMerge place | dictUpdate place =>
    exact change place (fun dict more => (combined dict more).var) rfl
  | listToTuple =>
    exact (spends_pop _ (fits.least rfl)).andThen fun _ =>
      (spends_pushValue _).mono fun _ h => .of rfl h
  | makeFunction flags =>
    exact (spends_makeFunction flags fits).bind fun _ d h => (spends_pushValue _).mono fun _ h' => h' ▸ h
  | kwNames index => exact (spends_expectNames index).mono fun _ h => .of rfl h
  | call count => exact spends_callPlain hev count fits
  | callFunctionEx flags =>
    exact (spends_callExpanded hev flags _ (fits.unwatched rfl)).mono fun _ _ => .of_none rfl
  | binaryOp symbol =>
    have least := fits.least rfl
    dsimp only at least
    refine (spends_pop _ fun h => have := least h; by omega).andThen fun _ => ?_
    refine (spends_pop _ fun h => have := least h; by omega).andThen fun _ => ?_
    refine (spends_fromHeap _).andThen fun _ => ?_
    exact (spends_push _).mono fun d h => .of rfl (by dsimp only; omega)
  | compareOp _ | isOp _ | containsOp _ | importName _ =>
    exact (spends_popMany 2 _ (fits.least rfl)).andThen fun _ =>
      (spends_pushValue _).mono fun _ h => .of rfl h
  | unaryNot | getIter =>
    exact (spends_pop _ (fits.least rfl)).andThen fun _ =>
      (spends_pushValue _).mono fun _ h => .of rfl h
  | unaryNegative =>
    exact (spends_pop _ (fits.least rfl)).andThen fun _ => (spends_push _).mono fun _ h => .of rfl h
  | importFrom _ =>
    exact (spends_peek 1 _ fun h => ⟨Nat.le_refl 1, fits.least rfl h⟩).andThen fun _ =>
      (spends_pushValue _).mono fun _ h => .of rfl h
  | returnValue =>
    refine (spends_pop _ (fits.least rfl)).andThen fun _ => ?_
    exact .mono (spends_modifyFrame (fun _ => ⟨rfl, rfl, rfl⟩) fun _ => rfl) fun _ h => .of rfl h
  | raiseVarargs count =>
    exact (spends_popMany count _ (fits.least rfl)).andThen fun _ => .pure (.of rfl rfl)

/-! ## Edges -/

/-- The depth of the stack at which a block is about to be entered. -/
def depthAt (pending : List (Nat × BlockState)) (block : Nat) : Option Nat :=
  (pending.find? (·.1 == block)).map (·.2.stack.length)

theorem depthAt_cons (entry : Nat × BlockState) (rest : List (Nat × BlockState)) (block : Nat) :
    depthAt (entry :: rest) block =
      if entry.1 = block then some entry.2.stack.length else depthAt rest block := by
  by_cases h : entry.1 = block <;> simp [depthAt, h]

theorem depthAt_filter (pending : List (Nat × BlockState)) (block other : Nat) :
    depthAt (pending.filter (·.1 ≠ block)) other =
      if other = block then none else depthAt pending other := by
  induction pending with
  | nil => simp [depthAt]
  | cons entry rest ih =>
    by_cases h : entry.1 = block
    · rw [List.filter_cons_of_neg (by simpa using h), ih, depthAt_cons]
      split
      · rfl
      · rw [if_neg (by omega)]
    · rw [List.filter_cons_of_pos (by simpa using h), depthAt_cons, depthAt_cons, ih]
      split <;> split <;> first | rfl | omega

theorem merge_depth {here there : BlockState} (h : here.stack.length = there.stack.length) :
    ∃ merged, here.merge there = .ok merged ∧ merged.stack.length = there.stack.length := by
  unfold BlockState.merge
  rw [if_pos h]
  refine ⟨_, rfl, ?_⟩
  rw [List.length_zipWith, h, Nat.min_self]

/-- A state goes into an entry state of its own depth, and then the entry has that depth. -/
theorem addPending_depth {target : Nat} {state : BlockState} {pending : List (Nat × BlockState)}
    (agrees : ∀ known ∈ depthAt pending target, known = state.stack.length) :
    ∃ pending', addPending target state pending = .ok pending' ∧ ∀ block,
      depthAt pending' block =
        if target = block then some state.stack.length else depthAt pending block := by
  induction pending with
  | nil => exact ⟨_, rfl, depthAt_cons _ _⟩
  | cons entry rest ih =>
    obtain ⟨place, known⟩ := entry
    rw [depthAt_cons] at agrees
    by_cases h : place = target
    · rw [if_pos h] at agrees
      obtain ⟨merged, hmerged, depth⟩ := merge_depth (agrees _ rfl)
      refine ⟨(place, merged) :: rest, addPending_cons_eq_ok.mpr (.inl ⟨h, merged, hmerged, rfl⟩), ?_⟩
      intro block
      rw [depthAt_cons, depthAt_cons, depth, h]
      split <;> rfl
    · rw [if_neg h] at agrees
      obtain ⟨rest', hrest, depths⟩ := ih agrees
      refine ⟨(place, known) :: rest', addPending_cons_eq_ok.mpr (.inr ⟨h, rest', hrest, rfl⟩), ?_⟩
      intro block
      rw [depthAt_cons, depthAt_cons, depths]
      split <;> split <;> first | rfl | omega

theorem addPending_fault {target : Nat} {state : BlockState} {pending : List (Nat × BlockState)}
    {fault : Fault} (h : addPending target state pending = .error fault) :
    fault.kind? = some .stack := by
  induction pending with
  | nil => cases h
  | cons entry rest ih =>
    obtain ⟨place, known⟩ := entry
    rw [addPending] at h
    split at h
    · unfold BlockState.merge at h
      split at h
      · cases h
      · cases h
        rfl
    · cases hrest : addPending target state rest with
      | error fault' =>
        rw [hrest] at h
        cases h
        exact ih hrest
      | ok rest' =>
        rw [hrest] at h
        cases h

section Edges

variable {target : Nat} {state : BlockState} {s : Execution}

/-- An edge is one that the simulation of depths follows: it leads forward to a block. -/
def Follows (frame : Frame) (target : Nat) : Prop :=
  frame.block < target ∧ target < frame.code.blocks.length

instance (frame : Frame) (target : Nat) : Decidable (Follows frame target) := instDecidableAnd

/-- An edge leads nowhere, or its state goes into the entry state of its target. -/
theorem enter_depth (agrees : Follows s.frame target →
      ∀ known ∈ depthAt s.frame.pending target, known = state.stack.length) :
    (∃ fault, enter target state s = (.error fault, s) ∧ fault.kind? = none) ∨
      ∃ pending, enter target state s = (.ok (), ⟨{ s.frame with pending }, s.context⟩) ∧
        ∀ block, depthAt pending block =
          if Follows s.frame target ∧ target = block then some state.stack.length
          else depthAt s.frame.pending block := by
  by_cases forward : s.frame.block < target
  · by_cases within : target < s.frame.code.blocks.length
    · obtain ⟨pending, added, depths⟩ := addPending_depth (agrees ⟨forward, within⟩)
      refine .inr ⟨pending, enter_eq_ok.mpr (.inl ⟨forward, within, pending, added, rfl⟩), ?_⟩
      simpa [Follows, forward, within] using depths
    · refine .inl ⟨.unhandled (.jumpTarget target s.frame.name s.frame.code.blocks.length), ?_, rfl⟩
      change (if s.frame.block < target then do
          if s.frame.code.blocks.length ≤ target then
            throw (.unhandled (.jumpTarget target s.frame.name s.frame.code.blocks.length))
          let pending ← check (addPending target state s.frame.pending)
          modifyFrame fun frame => { frame with pending }
        else pure () : FrameStep Unit) s = _
      rw [if_pos forward, if_pos (by omega)]
      rfl
  · refine .inr ⟨s.frame.pending, enter_eq_ok.mpr (.inr ⟨by omega, rfl⟩), fun block => ?_⟩
    rw [if_neg fun h => forward h.1.1]

theorem enter_avoids (unwatched : watched ≠ some .stack) (target : Nat) (state : BlockState) :
    Step.Avoids watched (enter target state) := by
  refine .bind .get fun s => .ite ?_ (.pure _)
  have follow : Step.Avoids watched (do
      let pending ← check (addPending target state s.frame.pending)
      modifyFrame fun frame => { frame with pending } : FrameStep Unit) := by
    refine .bind (fun t fault h => ?_) fun _ => .modify _
    cases added : addPending target state s.frame.pending with
    | error fault' =>
      rw [added] at h
      cases h
      intro kind hkind hfault
      rw [addPending_fault added] at hfault
      exact unwatched (hfault ▸ hkind)
    | ok pending =>
      rw [added] at h
      cases h
  exact .ite (.bind (.throw (.of_kind? rfl)) fun _ => follow) follow

end Edges

/-! ## Frames that are not watched for faults of the stack -/

section Unwatched

/-- A step that spends from every depth avoids the faults watched for. -/
theorem Spends.avoids {m : FrameStep α} {Q : Nat → Nat → Prop}
    (h : ∀ base depth, Spends watched base depth m (Q depth)) : Step.Avoids watched m :=
  fun s fault hfault => (h s.frame _ s (.refl _) rfl).2.2 fault hfault

variable (unwatched : watched ≠ some .stack)

include unwatched

theorem jump_avoids (target : Nat) : Step.Avoids watched (jump target) :=
  .bind (.bind .get fun _ => .pure _) fun state => enter_avoids unwatched target state

omit unwatched in
theorem takePending_avoids (block : Nat) : Step.Avoids watched (takePending block) := by
  refine .bind (.bind .get fun _ => .pure _) fun pending => ?_
  split
  · exact .pure _
  · exact .bind (.modify _) fun _ => .pure _

theorem perform_jump_avoids {target : Nat} (jumps : op.jumpTarget? = some target) :
    Step.Avoids watched (perform ev op) := by
  have popped : Step.Avoids watched (pop op) :=
    Spends.avoids (Q := fun depth d => d = depth - 1)
      fun _ _ => spends_pop op fun stack => absurd stack unwatched
  cases op <;> cases jumps
  case forIter =>
    refine .bind (.bind .get fun _ => .pure _) fun stack => ?_
    split
    · refine .bind (.bind .get fun _ => .pure _) fun name => .throw fun kind watching hkind => ?_
      cases hkind
      exact unwatched watching
    · exact .bind (enter_avoids unwatched target _) fun _ =>
        Spends.avoids (Q := fun depth d => d = depth + 1) fun _ _ => spends_pushValue .any
  case jumpForward | jumpBackward => exact jump_avoids unwatched target
  case popJumpIfFalse | popJumpIfTrue | popJumpIfNone | popJumpIfNotNone =>
    exact .bind popped fun _ => jump_avoids unwatched target

theorem perform_avoids (hev : ev.Avoids watched) {op : Opcode}
    (words : watched = some .word → op.InWords ∧ ∀ flags, op ≠ .makeFunction flags) :
    Step.Avoids watched (perform ev op) := by
  cases jumps : op.jumpTarget? with
  | some target => exact perform_jump_avoids unwatched jumps
  | none =>
    exact Spends.avoids fun _ _ =>
      perform_spends hev jumps ⟨fun stack => absurd stack unwatched, words⟩

variable (uncounted : watched ≠ some .word)

include uncounted

theorem runInstructions_avoids (hev : ev.Avoids watched) (instructions : List Instruction) :
    Step.Avoids watched (runInstructions ev instructions) := by
  induction instructions with
  | nil => exact .pure _
  | cons instruction rest ih =>
    refine .bind (.modify _) fun _ => .bind (Spends.avoids fun _ _ => spends_syncPosition) fun _ => ?_
    refine .bind (.bind (perform_avoids unwatched hev fun word => absurd word uncounted)
      fun _ => .pure _) fun flow => ?_
    cases flow with
    | stop => exact .pure _
    | next => exact ih

theorem runBlocks_avoids (hev : ev.Avoids watched) (index : Nat) (blocks : List Block) :
    Step.Avoids watched (runBlocks ev index blocks) := by
  induction blocks generalizing index with
  | nil => exact .pure _
  | cons block rest ih =>
    refine .bind (.bind (takePending_avoids index) fun entry => ?_) fun _ => ih (index + 1)
    · cases entry with
      | none => exact .pure _
      | some state =>
        refine .bind (.modify _) fun _ => .bind (runInstructions_avoids unwatched uncounted hev block) fun _ => ?_
        exact .ite (jump_avoids unwatched _) (.pure _)

theorem runAll_avoids (hev : ev.Avoids watched) : Step.Avoids watched (runAll ev) := by
  refine .bind .get fun s => ?_
  have run : Step.Avoids watched (do
      modifyFrame fun frame => { frame with pending := startPending frame }
      runBlocks ev 0 s.frame.code.blocks
      modifyFrame fun frame => { frame with finished := true } : FrameStep Unit) :=
    .bind (.modify _) fun _ => .bind (runBlocks_avoids unwatched uncounted hev 0 _) fun _ => .modify _
  exact .ite (.bind (.throw (.of_kind? rfl)) fun _ => run) run

end Unwatched

end FrameStep

/-- Where neither faults of the stack nor panics are watched for, a run ends in a fault of the kind only
where the calls that it makes do. -/
theorem Frame.runToEnd_avoids_of_ne {watched : Option Fault.Kind} {ev : Evaluator}
    (unwatched : watched ≠ some .stack) (uncounted : watched ≠ some .word) (hev : ev.Avoids watched) (frame : Frame) :
    Step.Avoids watched (frame.runToEnd ev) := by
  intro ctx fault h
  have all := FrameStep.runAll_avoids unwatched uncounted hev ⟨frame, ctx⟩
  rw [runToEnd, Step.bind_apply, Frame.run] at h
  rcases hrun : FrameStep.runAll ev ⟨frame, ctx⟩ with ⟨fault' | _, left⟩ <;> rw [hrun] at h all
  · cases h
    exact all fault rfl
  · cases h

end StubInference
