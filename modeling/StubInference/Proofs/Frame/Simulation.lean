import StubInference.Proofs.Frame.Joins
import StubInference.Proofs.Frame.Path
import StubInference.Proofs.Frame.Steps

/-!
# Following a run

An instruction that two frames execute on operands of which the first are tracked by the second
leaves tracked operands. The second frame may have joined the states of several paths, the first
one runs along a single path.

The frames are fixed up to their operand stacks here, so that what an instruction leaves alone need
not be proved unchanged.

## Main definitions

* `Alongside` — two executions with tracked operands
* `Follows` — a step succeeds where another one does, and tracking is kept

## Main results

* `perform_follows` — instructions on the operand stack keep tracking
-/

namespace StubInference

/-- The frame with another operand stack. -/
def Frame.onStack (frame : Frame) (stack : List Variable) : Frame :=
  { frame with state := { frame.state with stack } }

/-- Two executions of frames that differ from given ones in the operand stack alone. The operands
of the first are tracked by those of the second. -/
structure Alongside (a b : Frame) (heap : Heap) (s t : Execution) : Prop where
  here : s.frame = a.onStack s.frame.state.stack
  there : t.frame = b.onStack t.frame.state.stack
  heapHere : s.context.heap = heap
  heapThere : t.context.heap = heap
  stack : AllTracked s.frame.state.stack t.frame.state.stack

/-- Where the second step succeeds the first one does too, with a related result. -/
def Follows {α β : Type} (a b : Frame) (heap : Heap) (m : FrameStep α) (n : FrameStep β)
    (R : α → β → Prop) : Prop :=
  ∀ ⦃s t : Execution⦄ ⦃y : β⦄ ⦃t' : Execution⦄, Alongside a b heap s t → n t = (.ok y, t') →
    ∃ x s', m s = (.ok x, s') ∧ Alongside a b heap s' t' ∧ R x y

/-- Two frames with the same constants. -/
structure SameCode (a b : Frame) : Prop where
  code : a.code = b.code
  site : a.site = b.site

namespace Alongside

variable {a b : Frame} {heap : Heap} {s t : Execution}

/-- Other operands on both sides. -/
theorem withStack (h : Alongside a b heap s t) {vs ws : List Variable} (hs : AllTracked vs ws) :
    Alongside a b heap (s.withState { s.frame.state with stack := vs })
      (t.withState { t.frame.state with stack := ws }) where
  here := by
    change { s.frame with state := { s.frame.state with stack := vs } } = _
    rw [h.here]
    rfl
  there := by
    change { t.frame with state := { t.frame.state with stack := ws } } = _
    rw [h.there]
    rfl
  heapHere := h.heapHere
  heapThere := h.heapThere
  stack := hs

theorem locals_here (h : Alongside a b heap s t) : s.frame.state.locals = a.state.locals := by
  rw [h.here]
  rfl

theorem locals_there (h : Alongside a b heap s t) : t.frame.state.locals = b.state.locals := by
  rw [h.there]
  rfl

end Alongside

namespace Follows

open FrameStep

variable {α β γ δ : Type} {a b : Frame} {heap : Heap} {op : Opcode} {v w : Variable}

/-! ## Sequences -/

theorem pure {x : α} {y : β} {R : α → β → Prop} (h : R x y) :
    Follows a b heap (Pure.pure x) (Pure.pure y) R := by
  intro s t _ _ along ht
  cases ht
  exact ⟨x, s, rfl, along, h⟩

theorem bind {m : FrameStep α} {n : FrameStep β} {f : α → FrameStep γ} {g : β → FrameStep δ}
    {R : α → β → Prop} {Q : γ → δ → Prop} (first : Follows a b heap m n R)
    (second : ∀ x y, R x y → Follows a b heap (f x) (g y) Q) :
    Follows a b heap (m >>= f) (n >>= g) Q := by
  intro s t _ _ along ht
  obtain ⟨y, t', hn, hg⟩ := Step.bind_eq_ok.mp ht
  obtain ⟨x, s', hm, along', hR⟩ := first along hn
  obtain ⟨x', s'', hf, along'', hQ⟩ := second x y hR along' hg
  exact ⟨x', s'', Step.bind_eq_ok.mpr ⟨x, s', hm, hf⟩, along'', hQ⟩

/-! ## The operand stack -/

theorem push (h : v.TrackedBy w) : Follows a b heap (push v) (push w) fun _ _ => True := by
  intro s t _ _ along ht
  cases ht
  exact ⟨(), _, push_apply v s, along.withStack (.cons h along.stack), trivial⟩

theorem pushValue {x y : Value} (h : x.coveredBy y = true) (proper : y.Proper) :
    Follows a b heap (pushValue x) (pushValue y) fun _ _ => True := by
  intro s t _ _ along ht
  rw [pushValue_apply] at ht
  obtain ⟨_, s', hs, along', -⟩ := push (.ofValueAt h proper (.line s.frame.line) _) along ht
  exact ⟨(), s', by rw [pushValue_apply]; exact hs, along', trivial⟩

theorem pop : Follows a b heap (pop op) (pop op) Variable.TrackedBy := by
  intro s t w _ along ht
  obtain ⟨rest, hw, rfl⟩ := pop_eq_ok.mp ht
  have stack := along.stack
  rw [hw] at stack
  cases hs : s.frame.state.stack with
  | nil => simp [hs] at stack
  | cons v vs =>
    rw [hs] at stack
    obtain ⟨hv, hrest⟩ := List.forall₂_cons.mp stack
    exact ⟨v, _, pop_eq_ok.mpr ⟨vs, hs, rfl⟩, along.withStack hrest, hv⟩

theorem popMany {count : Nat} :
    Follows a b heap (popMany count op) (popMany count op) AllTracked := by
  intro s t ws _ along ht
  obtain ⟨hle, rfl, rfl⟩ := popMany_eq_ok.mp ht
  have hlen := along.stack.length_eq
  refine ⟨_, _, popMany_eq_ok.mpr ⟨by omega, rfl, rfl⟩, along.withStack ?_, ?_⟩
  · exact List.forall₂_drop count along.stack
  · exact List.rel_reverse (List.forall₂_take count along.stack)

theorem peek {depth : Nat} :
    Follows a b heap (peek depth op) (peek depth op) Variable.TrackedBy := by
  intro s t w _ along ht
  obtain ⟨above, rfl, hw, rfl⟩ := peek_eq_ok.mp ht
  obtain ⟨hlt, hget⟩ := List.getElem?_eq_some_iff.mp hw
  have hlt' : above < s.frame.state.stack.length := along.stack.length_eq ▸ hlt
  have tracked := along.stack.get hlt' hlt
  refine ⟨_, s, peek_eq_ok.mpr ⟨above, rfl, List.getElem?_eq_getElem hlt', rfl⟩, along, ?_⟩
  rw [← hget]
  exact tracked

theorem forall₂_set {vs ws : List Variable} (h : AllTracked vs ws) (hv : v.TrackedBy w) (i : Nat) :
    AllTracked (vs.set i v) (ws.set i w) := by
  induction h generalizing i with
  | nil => exact .nil
  | cons head rest ih =>
    cases i with
    | zero => exact .cons hv rest
    | succ i => exact .cons head (ih i)

theorem replace {depth : Nat} (h : v.TrackedBy w) :
    Follows a b heap (replace depth v) (replace depth w) fun _ _ => True := by
  intro s t _ _ along ht
  cases ht
  exact ⟨(), _, replace_apply depth v s,
    along.withStack (forall₂_set along.stack h (depth - 1)), trivial⟩

/-! ## Constants, checks and the heap -/

theorem check {result : Except Fault α} {result' : Except Fault β} {R : α → β → Prop}
    (h : ∀ y, result' = .ok y → ∃ x, result = .ok x ∧ R x y) :
    Follows a b heap (check result) (check result') R := by
  intro s t y _ along ht
  obtain ⟨hy, rfl⟩ := check_eq_ok.mp ht
  obtain ⟨x, hx, hR⟩ := h y hy
  exact ⟨x, s, check_eq_ok.mpr ⟨hx, rfl⟩, along, hR⟩

theorem constant (same : SameCode a b) {index : Nat} :
    Follows a b heap (constant index) (constant index) Eq := by
  intro s t y _ along ht
  obtain ⟨hy, rfl⟩ := constant_eq_ok.mp ht
  refine ⟨y, s, constant_eq_ok.mpr ⟨?_, rfl⟩, along, rfl⟩
  rw [along.there] at hy
  rw [along.here, ← hy]
  change a.code.literalAt a.site index = b.code.literalAt b.site index
  rw [same.code, same.site]

theorem fromHeap {read : Heap → α} {read' : Heap → β} {R : α → β → Prop}
    (h : R (read heap) (read' heap)) : Follows a b heap (fromHeap read) (fromHeap read') R := by
  intro s t _ _ along ht
  cases ht
  refine ⟨_, s, fromHeap_apply read s, along, ?_⟩
  rw [along.heapHere, along.heapThere]
  exact h

/-! ## Names -/

theorem unbound {name : String} :
    Follows a b heap (unbound name) (unbound name) Variable.TrackedBy := by
  intro s t _ _ along ht
  cases ht
  exact ⟨_, _, rfl, ⟨along.here, along.there, along.heapHere, along.heapThere, along.stack⟩,
    .refl (.var .any)⟩

/-- A local is read where it is bound on both sides or unbound on both. -/
theorem loadFast {name : String} (locals : LocalsTracked a.state.locals b.state.locals)
    (reads : (a.state.locals.get? name).isSome ∨ b.state.locals.get? name = none) :
    Follows a b heap (loadFast name) (loadFast name) Variable.TrackedBy := by
  refine bind (R := fun x y => x = a.state.locals ∧ y = b.state.locals) ?_ ?_
  · intro s t _ _ along ht
    cases ht
    exact ⟨_, s, rfl, along, along.locals_here, along.locals_there⟩
  · rintro _ _ ⟨rfl, rfl⟩
    cases ha : a.state.locals.get? name with
    | some v =>
      obtain ⟨w, hb, hvw⟩ := locals name v ha
      rw [hb]
      exact pure hvw
    | none =>
      have hb : b.state.locals.get? name = none := reads.resolve_left (by simp [ha])
      rw [hb]
      exact unbound

end Follows

/-! ## Instructions -/

/-- An instruction on the operand stack succeeds where it succeeds on operands that track its own,
and the operands are tracked afterwards. -/
theorem perform_follows {a b : Frame} {op : Opcode} (ev : Evaluator) (heap : Heap)
    (hop : op.onStack = true) (same : SameCode a b)
    (locals : LocalsTracked a.state.locals b.state.locals)
    (reads : ∀ name, op = .loadFast name →
      (a.state.locals.get? name).isSome ∨ b.state.locals.get? name = none) :
    Follows a b heap (FrameStep.perform ev op) (FrameStep.perform ev op) fun _ _ => True := by
  have putBack : ∀ {x y : Value} {depth : Nat}, x.coveredBy y = true ∧ y.Proper →
      Follows a b heap (FrameStep.replace depth x.var) (FrameStep.replace depth y.var)
        fun _ _ => True := fun h => .replace (.var h.1 h.2)
  have pushNew : ∀ {x y : Value}, x.coveredBy y = true ∧ y.Proper →
      Follows a b heap (FrameStep.pushValue x) (FrameStep.pushValue y) fun _ _ => True :=
    fun h => .pushValue h.1 h.2
  have pushBool : Follows a b heap (FrameStep.pushValue (.frozen Builtins.bool))
      (FrameStep.pushValue (.frozen Builtins.bool)) fun _ _ => True :=
    .pushValue (Value.coveredBy_refl (.frozen _)) (.frozen _)
  have pushAny : Follows a b heap (FrameStep.pushValue .any) (FrameStep.pushValue .any)
      fun _ _ => True := .pushValue (Value.coveredBy_refl .any) .any
  cases op with
  | nop | resume | precall | cache => exact .pure trivial
  | pushNull => exact .pushValue (Value.coveredBy_refl .null) .null
  | popTop => exact .bind .pop fun _ _ _ => .pure trivial
  | copy depth => exact .bind .peek fun _ _ h => .push h
  | swap depth =>
    exact .bind .peek fun _ _ htop => .bind .peek fun _ _ hother =>
      .bind (.replace htop) fun _ _ _ => .replace hother
  | loadConst index =>
    exact .bind (.constant same) fun _ _ h =>
      h ▸ .pushValue (Value.coveredBy_refl (.literal _)) (.literal _)
  | loadFast name => exact .bind (.loadFast locals (reads name rfl)) fun _ _ h => .push h
  | buildTuple count => exact .bind .popMany fun _ _ h => pushNew (Variable.TrackedBy.tuple h)
  | buildList count => exact .bind .popMany fun _ _ h => pushNew (Variable.TrackedBy.list h)
  | buildMap count =>
    refine .bind (.check fun size hsize => ⟨size, hsize, rfl⟩) fun _ _ same => ?_
    exact same ▸ .bind .popMany fun _ _ h => pushNew (Variable.TrackedBy.dict_pairUp h)
  | buildConstKeyMap count =>
    exact .bind .pop fun _ _ hkeys => .bind .popMany fun _ _ hvalues =>
      .bind (.check fun _ hy => hkeys.keyedBy hvalues hy) fun _ _ h => pushNew h
  | listAppend depth =>
    exact .bind .pop fun _ _ hitem => .bind .peek fun _ _ hlist => putBack (hlist.appended hitem)
  | listExtend depth =>
    exact .bind .pop fun _ _ hmore => .bind .peek fun _ _ hlist => putBack (hlist.extended hmore)
  | listToTuple => exact .bind .pop fun _ _ h => pushNew h.tupleOf
  | dictMerge depth | dictUpdate depth =>
    exact .bind .pop fun _ _ hmore => .bind .peek fun _ _ hdict => putBack (hdict.combined hmore)
  | binaryOp symbol =>
    exact .bind .pop fun _ _ hright => .bind .pop fun _ _ hleft =>
      .bind (.fromHeap (hleft.binaryResults heap hright)) fun _ _ h => .push h
  | compareOp symbol | isOp invert | containsOp invert =>
    exact .bind .popMany fun _ _ _ => pushBool
  | unaryNot => exact .bind .pop fun _ _ _ => pushBool
  | unaryNegative => exact .bind .pop fun _ _ h => .push h.negationResults
  | getIter => exact .bind .pop fun _ _ _ => pushAny
  | raiseVarargs count => exact .bind .popMany fun _ _ _ => .pure trivial
  | _ => simp [Opcode.onStack] at hop

end StubInference
