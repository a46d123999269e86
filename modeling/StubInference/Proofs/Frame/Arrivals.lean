import StubInference.Proofs.Frame.Coverage
import StubInference.Proofs.Frame.Merging

/-!
# States that arrive at a block

Edges bring states to the entry of their target, where each is joined with what came before. Whatever a
frame does between two edges into a block, its other edges included, leaves the entry of the block alone.
In a run the edges are the jumps of the blocks in front, and the end of the block right before. So once the
run comes to a block, the entry state is the join of all states that were brought there.

## Main definitions

* `FrameStep.entryOf` — the entry state of a block
* `FrameStep.Arrives` — some states are brought to the entry of a block
* `FrameStep.JoinsOf` — an entry state is the join of some states
* `Frame.reach`, `Frame.brought` — how a run comes to a block, and the states that it brings there

## Main results

* `FrameStep.exists_enter_error_iff`, `FrameStep.enter_eq_error` — edges that fail
* `FrameStep.Arrives.joinsOf` — entry states after any edges
* `FrameStep.perform_arrives`, `FrameStep.runBlocks_arrives` — the edges of an instruction and of a run
* `merge_laws` — the laws of joins, of edges and of runs together
-/

namespace StubInference

open BlockState FrameStep

/-! ## Entry states -/

namespace FrameStep

/-- The entry state of a block, if an edge has reached it. -/
def entryOf (pending : List (Nat × BlockState)) (block : Nat) : Option BlockState :=
  (pending.find? (·.1 == block)).map (·.2)

theorem entryOf_cons (entry : Nat × BlockState) (rest : List (Nat × BlockState)) (block : Nat) :
    entryOf (entry :: rest) block = if entry.1 = block then some entry.2 else entryOf rest block := by
  by_cases h : entry.1 = block <;> simp [entryOf, h]

theorem entryOf_filter {pending : List (Nat × BlockState)} {block other : Nat} (ne : other ≠ block) :
    entryOf (pending.filter (·.1 ≠ other)) block = entryOf pending block := by
  induction pending with
  | nil => rfl
  | cons entry rest ih =>
    by_cases h : entry.1 = other
    · rw [List.filter_cons_of_neg (by simpa using h), ih, entryOf_cons, if_neg (h ▸ ne)]
    · rw [List.filter_cons_of_pos (by simpa using h), entryOf_cons, entryOf_cons, ih]

variable {pending pending' : List (Nat × BlockState)} {target block : Nat} {state known : BlockState}
  {states : List BlockState} {s t u : Execution} {ev : Evaluator} {op : Opcode}

/-- An edge brings its state to the entry of its target, where it is joined with the state known there,
and changes no other entry. -/
theorem entryOf_addPending (h : addPending target state pending = .ok pending') :
    ∃ entered, (entryOf pending target).elim (.ok state) (·.merge state) = .ok entered ∧
      ∀ block, entryOf pending' block = if target = block then some entered else entryOf pending block := by
  induction pending generalizing pending' with
  | nil =>
    cases h
    exact ⟨state, rfl, entryOf_cons _ _⟩
  | cons entry rest ih =>
    obtain ⟨place, known⟩ := entry
    rcases addPending_cons_eq_ok.mp h with ⟨rfl, merged, joined, rfl⟩ | ⟨ne, rest', added, rfl⟩
    · use merged
      rw [entryOf_cons, if_pos rfl]
      refine ⟨joined, fun block => ?_⟩
      rw [entryOf_cons, entryOf_cons]
      split <;> rfl
    · obtain ⟨entered, brought, others⟩ := ih added
      use entered
      rw [entryOf_cons, if_neg ne]
      refine ⟨brought, fun block => ?_⟩
      rw [entryOf_cons, entryOf_cons, others]
      -- the entry in front is of another block than the target
      by_cases here : place = block
      · rw [if_pos here, if_pos here, if_neg fun there => ne (here.trans there.symm)]
      · rw [if_neg here, if_neg here]

theorem exists_addPending_iff : (∃ pending', addPending target state pending = .ok pending') ↔
    ∀ known ∈ entryOf pending target, known.stack.length = state.stack.length := by
  constructor
  · rintro ⟨pending', h⟩ known held
    obtain ⟨entered, brought, -⟩ := entryOf_addPending h
    rw [Option.mem_def.mp held] at brought
    exact (merge_eq_ok_iff.mp brought).1
  · intro depths
    have agrees : ∀ depth ∈ depthAt pending target, depth = state.stack.length := by
      intro depth hdepth
      obtain ⟨entry, found, rfl⟩ := Option.map_eq_some_iff.mp hdepth
      exact depths entry.2 (Option.map_eq_some_iff.mpr ⟨entry, found, rfl⟩)
    obtain ⟨pending', h, -⟩ := addPending_depth agrees
    exact ⟨pending', h⟩

/-- An edge that leads nowhere, or that a state of another depth awaits, leaves the execution alone. -/
theorem enter_eq_error {fault : Fault} (h : enter target state s = (.error fault, t)) : t = s := by
  change (if s.frame.block < target then do
      if s.frame.code.blocks.length ≤ target then
        throw (.unhandled (.jumpTarget target s.frame.name s.frame.code.blocks.length))
      let pending ← check (addPending target state s.frame.pending)
      modifyFrame fun frame => { frame with pending }
    else pure () : FrameStep Unit) s = _ at h
  split at h
  · split at h
    · cases h
      rfl
    · cases added : addPending target state s.frame.pending <;> rw [added] at h <;> cases h
      rfl
  · cases h

/-- An edge to a block fails just where a state of another depth is known there. -/
theorem exists_enter_error_iff (follows : Follows s.frame target) :
    (∃ fault t, enter target state s = (.error fault, t)) ↔
      ∃ known ∈ entryOf s.frame.pending target, known.stack.length ≠ state.stack.length := by
  have succeeds : (∃ t, enter target state s = (.ok (), t)) ↔
      ∃ pending, addPending target state s.frame.pending = .ok pending := by
    constructor
    · rintro ⟨t, h⟩
      rcases enter_eq_ok.mp h with ⟨-, -, pending, added, -⟩ | ⟨back, -⟩
      · exact ⟨pending, added⟩
      · exact absurd follows.1 (by omega)
    · rintro ⟨pending, added⟩
      exact ⟨_, enter_eq_ok.mpr (.inl ⟨follows.1, follows.2, pending, added, rfl⟩)⟩
  rw [exists_addPending_iff] at succeeds
  -- an edge fails where it does not succeed
  have fails : (∃ fault t, enter target state s = (.error fault, t)) ↔
      ¬ ∃ t, enter target state s = (.ok (), t) := by
    rcases enter target state s with ⟨fault | _, t⟩
    · apply iff_of_true ⟨fault, t, rfl⟩
      rintro ⟨t, ⟨⟩⟩
    · apply iff_of_false
      · rintro ⟨fault, t, ⟨⟩⟩
      · exact fun failed => failed ⟨t, rfl⟩
  rw [fails, succeeds]
  simp

/-- A frame comes from one execution to another, and some states are brought to the entry of a block on
the way, in order. What else happens leaves that entry alone. -/
inductive Arrives (block : Nat) : List BlockState → Execution → Execution → Prop
  | between {s t : Execution} (kept : entryOf t.frame.pending block = entryOf s.frame.pending block) :
      Arrives block [] s t
  | edge {state : BlockState} {s t : Execution} (follows : Follows s.frame block)
      (entered : enter block state s = (.ok (), t)) : Arrives block [state] s t
  | trans {states more : List BlockState} {s t u : Execution} (first : Arrives block states s t)
      (second : Arrives block more t u) : Arrives block (states ++ more) s u

/-- An entry state is the join of some states, and missing if there are none. -/
structure JoinsOf (entry : Option BlockState) (states : List BlockState) : Prop where
  none_iff : entry = none ↔ states = []
  isJoin : ∀ joined ∈ entry, joined.IsJoinOf states ∧ joined.Tidy

theorem JoinsOf.nil : JoinsOf none [] := ⟨by simp, by simp⟩

/-- One more edge brings one more state into the join. -/
theorem JoinsOf.enter (joins : JoinsOf (entryOf s.frame.pending block) states) (tidy : state.Tidy)
    (follows : Follows s.frame block) (entered : enter block state s = (.ok (), t)) :
    JoinsOf (entryOf t.frame.pending block) (states ++ [state]) := by
  rcases enter_eq_ok.mp entered with ⟨-, -, pending, added, rfl⟩ | ⟨back, -⟩
  · obtain ⟨joined, brought, entries⟩ := entryOf_addPending added
    have entry : entryOf pending block = some joined := by rw [entries, if_pos rfl]
    change JoinsOf (entryOf pending block) _
    rw [entry]
    refine ⟨by simp, fun _ h => ?_⟩
    obtain rfl := Option.some.inj h
    cases held : entryOf s.frame.pending block with
    | none =>
      rw [joins.none_iff.mp held]
      rw [held] at brought
      obtain rfl : state = joined := Except.ok.inj brought
      exact ⟨tidy.isJoinOf, tidy⟩
    | some known =>
      obtain ⟨isJoin, hknown⟩ := joins.isJoin known held
      rw [held] at brought
      exact ⟨isJoin.merge tidy brought, hknown.merge tidy brought⟩
  · exact absurd follows.1 (by omega)

/-- However many states edges bring to a block, its entry state is the join of all of them. -/
theorem Arrives.joinsOf {earlier : List BlockState} (arrives : Arrives block states s t)
    (tidy : ∀ state ∈ states, state.Tidy) (joins : JoinsOf (entryOf s.frame.pending block) earlier) :
    JoinsOf (entryOf t.frame.pending block) (earlier ++ states) := by
  -- on how the states arrive, with those that came earlier left open
  induction arrives generalizing earlier with
  | between kept => rwa [kept, List.append_nil]
  | edge follows entered => exact joins.enter (tidy _ (List.mem_singleton_self _)) follows entered
  | trans _ _ ih ih' =>
    obtain ⟨tidy, tidy'⟩ := List.forall_mem_append.mp tidy
    rw [← List.append_assoc]
    exact ih' tidy' (ih tidy joins)

theorem Arrives.joinsOf_of_none (arrives : Arrives block states s t)
    (tidy : ∀ state ∈ states, state.Tidy) (missing : entryOf s.frame.pending block = none) :
    JoinsOf (entryOf t.frame.pending block) states := by
  have nothing : JoinsOf (entryOf s.frame.pending block) [] := missing ▸ .nil
  exact arrives.joinsOf tidy nothing

/-! ## Whole runs -/

/-- The state that a jump brings along. A conditional one and the end of a loop have taken the top of the
stack off. -/
def alongJump (op : Opcode) (state : BlockState) : BlockState :=
  match op with
  | .jumpForward _ | .jumpBackward _ => state
  | _ => { state with stack := state.stack.tail }

/-- The state that an instruction brings to a later block, if it jumps there. -/
def jumpedTo (block : Nat) (op : Opcode) (frame : Frame) : List BlockState :=
  if op.jumpTarget? = some block ∧ frame.block < block then [alongJump op frame.state] else []

/-- The states that the rest of a block brings to a later block, by its jumps and at its end. -/
def broughtBy (ev : Evaluator) (block : Nat) : List Instruction → Execution → List BlockState
  | [], s => if s.frame.block + 1 = block then [s.frame.state] else []
  | instruction :: rest, s =>
    let op := instruction.opcode
    jumpedTo block op s.frame ++ match flowAfter op with
      | .stop => []
      | .next => broughtBy ev block rest (perform ev op (s.atLine instruction.line)).2

/-- The execution as a run comes to a block. -/
def reach (ev : Evaluator) (blocks : List Block) (s : Execution) : Nat → Execution
  | 0 => s
  | index + 1 =>
    let before := reach ev blocks s index
    blocks[index]?.elim before fun here =>
      (runBlock ev index here (blocks.drop (index + 1)).isEmpty before).2

/-- The states that a run brings to a block out of an earlier one, if it enters that. -/
def broughtFrom (ev : Evaluator) (blocks : List Block) (s : Execution) (block index : Nat) :
    List BlockState :=
  let before := reach ev blocks s index
  blocks[index]?.elim [] fun here => (entryOf before.frame.pending index).elim [] fun state =>
    broughtBy ev block here (before.atBlock index state)

/-- The states that a run brings to a block. -/
def brought (ev : Evaluator) (blocks : List Block) (s : Execution) (block : Nat) : List BlockState :=
  (List.range block).flatMap (broughtFrom ev blocks s block)

theorem Arrives.after (first : Arrives block [] s t) (arrives : Arrives block states t u) :
    Arrives block states s u := first.trans arrives

theorem Arrives.before (arrives : Arrives block states s t) (last : Arrives block [] t u) :
    Arrives block states s u := by
  have both := arrives.trans last
  rwa [List.append_nil] at both

theorem enter_arrives (h : enter target state s = (.ok (), t)) (block : Nat) :
    Arrives block (if target = block ∧ s.frame.block < block then [state] else []) s t ∧
      t.frame.block = s.frame.block := by
  rcases enter_eq_ok.mp h with ⟨forward, within, pending, added, rfl⟩ | ⟨back, rfl⟩
  · refine ⟨?_, rfl⟩
    by_cases same : target = block
    · subst same
      rw [if_pos ⟨rfl, forward⟩]
      exact .edge ⟨forward, within⟩ h
    · obtain ⟨_, -, entries⟩ := entryOf_addPending added
      rw [if_neg fun h => same h.1]
      exact .between (by rw [entries, if_neg same])
  · -- an edge that leads back is not followed
    rw [if_neg (by omega)]
    exact ⟨.between rfl, rfl⟩

/-- An instruction that does not jump leaves the entry states alone. -/
theorem still_perform (jumps : op.jumpTarget? = none) (ht : perform ev op s = (.ok (), t)) :
    s.frame.Still t.frame := by
  have spends : Spends none s.frame s.frame.state.stack.length (perform ev op) _ :=
    perform_spends ev.avoids_none jumps .of_none
  obtain ⟨still, -⟩ := spends s (.refl _) rfl
  rwa [ht] at still

theorem jumpedTo_of_jumpTarget? (jumps : op.jumpTarget? = some target) (block : Nat) (frame : Frame) :
    jumpedTo block op frame =
      if target = block ∧ frame.block < block then [alongJump op frame.state] else [] := by
  rw [jumpedTo, jumps]
  simp only [Option.some.injEq]

/-- An instruction that jumps brings along its state, without the top of the stack if it takes that off. -/
theorem perform_jump_arrives (jumps : op.jumpTarget? = some target)
    (ht : perform ev op s = (.ok (), t)) (block : Nat) :
    Arrives block (jumpedTo block op s.frame) s t ∧ t.frame.block = s.frame.block := by
  rw [jumpedTo_of_jumpTarget? jumps]
  have popped (along : alongJump op s.frame.state = { s.frame.state with stack := s.frame.state.stack.tail })
      (h : (do let _ ← pop op; jump target : FrameStep Unit) s = (.ok (), t)) :
      Arrives block (if target = block ∧ s.frame.block < block then [alongJump op s.frame.state] else [])
          s t ∧
        t.frame.block = s.frame.block := by
    obtain ⟨var, u, hu, hjump⟩ := Step.bind_eq_ok.mp h
    obtain ⟨rest, hs, rfl⟩ := pop_eq_ok.mp hu
    have taken : Arrives block [] s (s.withState { s.frame.state with stack := rest }) := .between rfl
    obtain ⟨arrives, standing⟩ := enter_arrives (jump_eq_ok.mp hjump) block
    rw [along, hs, List.tail_cons]
    exact ⟨taken.after arrives, standing⟩
  cases op <;> cases jumps <;> rw [perform] at ht
  case forIter =>
    obtain ⟨top, rest, u, hs, hu, hpush⟩ := iterate_eq_ok.mp ht
    rw [pushValue_apply, push_apply] at hpush
    cases hpush
    obtain ⟨arrives, standing⟩ := enter_arrives hu block
    dsimp only [alongJump]
    rw [hs, List.tail_cons]
    exact ⟨arrives.before (.between rfl), standing⟩
  case jumpForward | jumpBackward => exact enter_arrives (jump_eq_ok.mp ht) block
  case popJumpIfFalse | popJumpIfTrue | popJumpIfNone | popJumpIfNotNone => exact popped rfl ht

theorem perform_arrives (ht : perform ev op s = (.ok (), t)) (block : Nat) :
    Arrives block (jumpedTo block op s.frame) s t ∧ t.frame.block = s.frame.block := by
  cases jumps : op.jumpTarget? with
  | some target => exact perform_jump_arrives jumps ht block
  | none =>
    have still := still_perform jumps ht
    rw [jumpedTo, jumps, if_neg nofun]
    exact ⟨.between (by rw [still.pending]), still.block⟩

/-- What remains of a block brings its states to later blocks. -/
theorem finishBlock_arrives {index : Nat} {rest : List Instruction} {isLast : Bool}
    (standing : s.frame.block = index) (behind : index + 1 = block → isLast = false)
    (ht : finishBlock ev index rest isLast s = (.ok (), t)) :
    Arrives block (broughtBy ev block rest s) s t := by
  obtain ⟨flow, u, hu, hjump⟩ := Step.bind_eq_ok.mp ht
  induction rest generalizing s with
  | nil =>
    cases hu
    rw [broughtBy, standing]
    by_cases falls : isLast = false
    · rw [if_pos ⟨rfl, by rw [falls]; rfl⟩] at hjump
      have arrives := (enter_arrives (jump_eq_ok.mp hjump) block).1
      by_cases next : index + 1 = block
      · rw [if_pos ⟨next, by omega⟩] at arrives
        rwa [if_pos next]
      · rw [if_neg fun h => next h.1] at arrives
        rwa [if_neg next]
    · -- the last block leads nowhere, and no block comes after it
      rw [if_neg fun next => falls (behind next)]
      rw [if_neg (by simpa using falls)] at hjump
      cases hjump
      exact .between rfl
  | cons instruction rest ih =>
    obtain ⟨v, hv, h⟩ := runInstructions_cons_eq_ok.mp hu
    obtain ⟨arrives, stayed⟩ := perform_arrives hv block
    have lined : Arrives block [] s (s.atLine instruction.line) := .between rfl
    -- first comes the jump of the instruction, then the rest of the block, unless the path ends
    rw [broughtBy]
    apply Arrives.trans (t := v)
    · exact lined.after arrives
    · rcases h with ⟨stops, rfl, rfl⟩ | ⟨goes, h⟩
      · rw [stops]
        rw [if_neg nofun] at hjump
        cases hjump
        exact .between rfl
      · rw [goes, hv]
        exact ih (stayed.trans standing) (Step.bind_eq_ok.mpr ⟨flow, u, h, hjump⟩) h

theorem runBlock_apply (ev : Evaluator) (index : Nat) (here : Block) (isLast : Bool) (s : Execution) :
    runBlock ev index here isLast s = (entryOf s.frame.pending index).elim (.ok (), s) fun state =>
      finishBlock ev index here isLast (s.atBlock index state) := by
  rw [runBlock, Step.bind_apply, takePending_apply, entryOf]
  cases s.frame.pending.find? (·.1 == index) <;> rfl

/-- A run that succeeds comes to each block in turn, and brings states to the blocks behind it. -/
theorem runBlocks_arrives {blocks : List Block} {index : Nat} (within : block < blocks.length)
    (ht : runBlocks ev 0 blocks s = (.ok (), t)) (hle : index ≤ block) :
    Arrives block ((List.range index).flatMap (broughtFrom ev blocks s block)) s
        (reach ev blocks s index) ∧
      runBlocks ev index (blocks.drop index) (reach ev blocks s index) = (.ok (), t) := by
  induction index with
  | zero => exact ⟨.between rfl, ht⟩
  | succ index ih =>
    obtain ⟨arrives, ht⟩ := ih (by omega)
    have found : blocks[index]? = some blocks[index] := List.getElem?_eq_getElem (by omega)
    rw [List.drop_eq_getElem_cons (by omega), runBlocks] at ht
    obtain ⟨_, u, hu, ht⟩ := Step.bind_eq_ok.mp ht
    have reached : reach ev blocks s (index + 1) = u := by
      rw [reach, found]
      exact congrArg Prod.snd hu
    rw [reached, List.range_succ, List.flatMap_append, List.flatMap_singleton]
    refine ⟨arrives.trans ?_, ht⟩
    rw [broughtFrom, found]
    rw [runBlock_apply] at hu
    dsimp only [Option.elim_some]
    cases entry : entryOf (reach ev blocks s index).frame.pending index with
    | none =>
      rw [entry] at hu
      cases hu
      exact .between rfl
    | some state =>
      rw [entry, Option.elim_some] at hu
      rw [Option.elim_some]
      have behind : index + 1 = block → (blocks.drop (index + 1)).isEmpty = false := by
        intro next
        rw [List.isEmpty_eq_false_iff, Ne, List.drop_eq_nil_iff]
        omega
      -- the entry state that is used up is not the one of the block
      have taken : Arrives block [] (reach ev blocks s index)
          ((reach ev blocks s index).atBlock index state) := .between (entryOf_filter (by omega))
      have standing : ((reach ev blocks s index).atBlock index state).frame.block = index := rfl
      exact taken.after (finishBlock_arrives standing behind hu)

end FrameStep

/-- The execution as the run of a frame comes to a block. -/
def Frame.reach (ev : Evaluator) (ctx : Context) (block : Nat) (start : Frame) : Execution :=
  FrameStep.reach ev start.code.blocks (start.entering ctx) block

/-- The states that the run of a frame brings to a block. -/
def Frame.brought (ev : Evaluator) (ctx : Context) (block : Nat) (start : Frame) : List BlockState :=
  FrameStep.brought ev start.code.blocks (start.entering ctx) block

/-! ## All laws -/

/-- Two states have a join just where their stacks have one depth. It binds the names of both and holds
the values of both, the first ones first, and joining is idempotent, associative and, up to order,
commutative. An edge joins its state with the one that is known at its target, or fails and changes
nothing. So the entry state of a block is the join of what all edges have brought to it, in whatever order
they did, and so it is in the run of a frame. -/
theorem merge_laws :
    ((∀ here there : BlockState, (∃ fault, here.merge there = .error fault) ↔
        here.stack.length ≠ there.stack.length) ∧
      (∀ here there merged : BlockState, here.Tidy → there.Tidy → here.merge there = .ok merged →
        merged.Tidy ∧ merged.IsJoinOf [here, there]) ∧
      (∀ here : BlockState, here.Tidy → here.merge here = .ok here) ∧
      (∀ here there more : BlockState, here.Tidy → there.Tidy → more.Tidy →
        (here.merge there >>= (·.merge more)).toOption = (there.merge more >>= here.merge).toOption) ∧
      ∀ here there merged : BlockState, here.Tidy → there.Tidy → here.merge there = .ok merged →
        ∃ merged', there.merge here = .ok merged' ∧ merged.Alike merged') ∧
    ((∀ target state s, FrameStep.Follows s.frame target →
        ((∃ fault t, enter target state s = (.error fault, t)) ↔
          ∃ known ∈ entryOf s.frame.pending target, known.stack.length ≠ state.stack.length)) ∧
      ∀ target state s fault t, enter target state s = (.error fault, t) → t = s) ∧
    (∀ block states s t, entryOf s.frame.pending block = none → (∀ state ∈ states, state.Tidy) →
      Arrives block states s t → JoinsOf (entryOf t.frame.pending block) states) ∧
    (∀ block states states' s s' t t', states.Perm states' → (∀ state ∈ states, state.Tidy) →
      entryOf s.frame.pending block = none → entryOf s'.frame.pending block = none →
      Arrives block states s t → Arrives block states' s' t' →
      ∀ joined ∈ entryOf t.frame.pending block, ∀ joined' ∈ entryOf t'.frame.pending block,
        joined.Alike joined') ∧
    ∀ (ev : Evaluator) (start done : Frame) (ctx ctx' : Context) (block : Nat),
      start.runToEnd ev ctx = (.ok done, ctx') → block < start.code.blocks.length →
      entryOf (startPending start) block = none →
      (∀ state ∈ start.brought ev ctx block, state.Tidy) →
      (∃ t, runBlocks ev block (start.code.blocks.drop block) (start.reach ev ctx block) = (.ok (), t)) ∧
        JoinsOf (entryOf (start.reach ev ctx block).frame.pending block) (start.brought ev ctx block) := by
  refine ⟨⟨?_, ?_, ?_, ?_, ?_⟩, ⟨?_, ?_⟩, ?_, ?_, ?_⟩
  · exact fun here there => exists_error_merge_iff
  · exact fun here there merged hhere hthere h => ⟨hhere.merge hthere h, hhere.isJoinOf.merge hthere h⟩
  · exact fun here tidy => merge_self tidy
  · exact fun here there more hhere hthere hmore => merge_assoc hhere hthere hmore
  · intro here there merged hhere hthere h
    obtain ⟨merged', h', -⟩ := merge_depth (merge_eq_ok_iff.mp h).1.symm
    have joined := hhere.isJoinOf.merge hthere h
    exact ⟨merged', h', joined.alike_of_perm (hthere.isJoinOf.merge hhere h') (by simp) (.swap ..)⟩
  · exact fun target state s follows => exists_enter_error_iff follows
  · exact fun target state s fault t h => enter_eq_error h
  · intro block states s t missing tidy arrives
    exact arrives.joinsOf_of_none tidy missing
  · intro block states states' s s' t t' perm tidy missing missing' arrives arrives' joined hj joined' hj'
    have tidy' : ∀ state ∈ states', state.Tidy := fun state h => tidy state (perm.mem_iff.mpr h)
    have joins := arrives.joinsOf_of_none tidy missing
    have joins' := arrives'.joinsOf_of_none tidy' missing'
    refine (joins.isJoin joined hj).1.alike_of_perm (joins'.isJoin joined' hj').1 ?_ perm
    rintro rfl
    rw [joins.none_iff.mpr rfl] at hj
    cases hj
  · intro ev start done ctx ctx' block run within missing tidy
    obtain ⟨-, t, ran, -⟩ := FrameStep.runAll_eq_ok.mp (Frame.runToEnd_eq_ok.mp run)
    obtain ⟨arrives, rest⟩ := runBlocks_arrives within ran (Nat.le_refl block)
    exact ⟨⟨t, rest⟩, arrives.joinsOf_of_none tidy missing⟩

/-- Two states bind a name to different values, and a third one that has an operand more cannot be joined
with them. In the run of a conditional both branches bring a state to the block behind them. -/
theorem merge_laws_of_branches :
    let one := (Value.literal (.int 1)).var
    let text := (Value.literal (.str "s")).var
    let here : BlockState := ⟨[("x", one)], []⟩
    let there : BlockState := ⟨[("y", one), ("x", text)], []⟩
    let deeper : BlockState := ⟨[], [text]⟩
    let start := Frame.start "f" .function branching ⟨0, []⟩ none ⟨0⟩ [] ⟨1⟩ [("c", Value.any.var)]
    let s := start.entering (.new .standard)
    let states := start.brought (.atDepth 0) (.new .standard) 3
    ((∃ fault, here.merge deeper = .error fault) ∧
      (∃ joined swapped, here.merge there = .ok joined ∧ there.merge here = .ok swapped ∧
        joined.IsJoinOf [here, there] ∧ joined.Alike swapped) ∧
      here.merge here = .ok here ∧
      (here.merge there >>= (·.merge here)).toOption = (there.merge here >>= here.merge).toOption) ∧
    (∃ t u, enter 3 here s = (.ok (), t) ∧ enter 3 there t = (.ok (), u) ∧
      JoinsOf (entryOf u.frame.pending 3) [here, there] ∧
      ∃ fault, enter 3 deeper u = (.error fault, u)) ∧
    (∃ joined ∈ entryOf (enter 3 there (enter 3 here s).2).2.frame.pending 3,
      ∃ joined' ∈ entryOf (enter 3 here (enter 3 there s).2).2.frame.pending 3, joined.Alike joined') ∧
    states.length = 2 ∧
      JoinsOf (entryOf (start.reach (.atDepth 0) (.new .standard) 3).frame.pending 3) states := by
  intro one text here there deeper start s states
  obtain ⟨⟨depths, joins, again, assoc, swap⟩, ⟨fails, unchanged⟩, arriving, ordered, runs⟩ := merge_laws
  have plain (v : Variable) (single : v.bindings.length = 1)
      (h : ∀ a ∈ v.values, a.kind = .constant ∨ a.kind = .any) : v.Irredundant ∧ v.Keyed := by
    obtain ⟨binding, held⟩ := List.length_eq_one_iff.mp single
    refine ⟨⟨by simp [held], by simp [held]⟩, .intro fun a ha => ?_⟩
    have kinds := h a ha
    cases a with
    | any | literal => exact .of_plain rfl rfl (by simp)
    | _ => simp [Value.kind] at kinds
  have checked : ∀ state ∈ [here, there] ++ states, state.locals.names.Nodup ∧
      ∀ v ∈ state.locals.values ++ state.stack, v.bindings.length = 1 ∧
        ∀ a ∈ v.values, a.kind = .constant ∨ a.kind = .any := by decide +kernel
  have allTidy : ∀ state ∈ [here, there] ++ states, state.Tidy := by
    intro state h
    obtain ⟨names, vars⟩ := checked state h
    exact .of_forall names fun v hv => plain v (vars v hv).1 (vars v hv).2
  obtain ⟨tidy, tidyStates⟩ := List.forall_mem_append.mp allTidy
  obtain ⟨hhere, hthere⟩ : here.Tidy ∧ there.Tidy := by simpa using tidy
  -- both states are brought to the last block, in one order and in the other
  have follows : FrameStep.Follows s.frame 3 := by decide
  have first : Arrives 3 [here, there] s (enter 3 there (enter 3 here s).2).2 :=
    (Arrives.edge follows rfl).trans (.edge (by decide) rfl)
  have second : Arrives 3 [there, here] s (enter 3 here (enter 3 there s).2).2 :=
    (Arrives.edge follows rfl).trans (.edge (by decide) rfl)
  refine ⟨⟨(depths _ _).mpr (by decide), ?_, again here hhere, assoc _ _ _ hhere hthere hhere⟩, ?_, ?_,
    by decide +kernel, ?_⟩
  · obtain ⟨swapped, hswapped, alike⟩ := swap here there _ hhere hthere rfl
    exact ⟨_, swapped, rfl, hswapped, (joins here there _ hhere hthere rfl).2, alike⟩
  · refine ⟨_, _, rfl, rfl, arriving 3 _ _ _ rfl tidy first, ?_⟩
    obtain ⟨fault, t, failed⟩ := (fails 3 deeper (enter 3 there (enter 3 here s).2).2 (by decide)).mpr
      ⟨_, rfl, by decide⟩
    obtain rfl := unchanged _ _ _ _ _ failed
    exact ⟨fault, failed⟩
  · exact ⟨_, rfl, _, rfl, ordered 3 _ _ _ _ _ _ (.swap ..) tidy rfl rfl first second _ rfl _ rfl⟩
  · obtain ⟨done, ctx, run⟩ := Step.exists_of_isOk
      (r := start.runToEnd (.atDepth 0) (.new .standard)) (by decide +kernel)
    have joined := runs _ start done _ ctx 3 run (by decide) rfl tidyStates
    exact joined.2

end StubInference
