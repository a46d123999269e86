import StubInference.Interpreter
import StubInference.Proofs.Frame.Advance

/-!
# Paths are covered

What a frame has gathered when it is done covers what every forward path through its blocks yields
on its own: the locals at the return and the returned variable.

## Main definitions

* `Tracks` — an execution along a path is tracked by one that joins paths

## Main results

* `take_tracks`, `take_leaps`, `take_returns` — the three ways a path goes on after an instruction
* `Forward.covered` — from any point of a path to its return
* `Frame.runToEnd_covers_path` — whole paths
-/

namespace StubInference

open FrameStep

/-- An execution along one path, and one that has joined the states of several. -/
structure Tracks (s t : Execution) : Prop where
  same : SameCode s.frame t.frame
  here : s.frame.kind = .function
  there : t.frame.kind = .function
  heap : s.context.heap = t.context.heap
  state : s.frame.state.TrackedBy t.frame.state
  running : s.frame.returns = []

/-- All of the names are bound to locals. -/
def BoundIn (bound : List String) (locals : NameMap Variable) : Prop :=
  ∀ name ∈ bound, (locals.get? name).isSome

theorem BoundIn.insert {bound : List String} {locals : NameMap Variable} {name : String}
    {v : Variable} (h : BoundIn bound locals) :
    BoundIn (name :: bound) (locals.insert name v) := by
  intro other hother
  by_cases hn : name = other
  · simp [← hn, NameMap.get?_insert_self]
  · rw [NameMap.get?_insert_of_ne _ _ hn]
    exact h other ((List.mem_cons.mp hother).resolve_left (Ne.symm hn))

theorem BoundIn.erase {bound : List String} {locals : NameMap Variable} {name : String}
    (h : BoundIn bound locals) : BoundIn (bound.filter (· ≠ name)) (locals.erase name) := by
  intro other hother
  obtain ⟨hmem, hne⟩ := List.mem_filter.mp hother
  have hn : name ≠ other := fun e => (by simp [e] at hne)
  rw [NameMap.get?_erase_of_ne _ hn]
  exact h other hmem

theorem boundIn_names (locals : NameMap Variable) : BoundIn locals.names locals := by
  intro name hname
  induction locals with
  | nil => simp [NameMap.names] at hname
  | cons entry rest ih =>
    by_cases hk : entry.1 = name
    · simp [NameMap.get?, hk]
    · have hrest : name ∈ NameMap.names rest := by
        simpa [NameMap.names, Ne.symm hk] using hname
      simpa [NameMap.get?, hk] using ih hrest

section Moves

variable {ev : Evaluator} {op : Opcode} {s t t' : Execution} {bound : List String} {target : Nat}

theorem Tracks.alongside (h : Tracks s t) :
    Alongside s.frame t.frame t.context.heap s t := ⟨rfl, rfl, h.heap, rfl, h.state.stack⟩

/-- Other locals and stacks on both sides. -/
theorem Tracks.withState (h : Tracks s t) {a b : BlockState} (hab : a.TrackedBy b) :
    Tracks (s.withState a) (t.withState b) :=
  ⟨⟨h.same.code, h.same.site⟩, h.here, h.there, h.heap, hab, h.running⟩

theorem Tracks.atLine (h : Tracks s t) (line line' : Nat) : Tracks (s.atLine line) (t.atLine line') :=
  ⟨⟨h.same.code, h.same.site⟩, h.here, h.there, h.heap, h.state, h.running⟩

/-- Where the execution that joins paths takes the top off its stack, the other one can do so. -/
theorem Tracks.popped (h : Tracks s t) {w : Variable} {ws : List Variable}
    (ht : t.frame.state.stack = w :: ws) : ∃ v vs, s.frame.state.stack = v :: vs ∧
      v.TrackedBy w ∧ AllTracked vs ws := by
  have stack := h.state.stack
  rw [ht] at stack
  obtain ⟨v, vs, hv, hvs, hs⟩ := List.forall₂_cons_right_iff.mp stack
  exact ⟨v, vs, hs, hv, hvs⟩

/-- The path goes on with the next instruction. -/
theorem take_tracks (hop : op.isLocal = true) (flow : flowAfter op = .next) (tracks : Tracks s t)
    (hbound : BoundIn bound s.frame.state.locals)
    (reads : ∀ name, op = .loadFast name → name ∈ bound) (ht : perform ev op t = (.ok (), t')) :
    ∃ s', FrameStep.take ev op false s = (.ok (), s') ∧ Tracks s' t' ∧
      BoundIn (boundAfter bound op) s'.frame.state.locals := by
  rcases isLocal_cases hop with
    hop | hop | ⟨name, rfl⟩ | ⟨name, rfl⟩ | ⟨other, rfl⟩ | ⟨other, rfl | rfl⟩ | rfl
  · have follows := perform_follows ev t.context.heap hop tracks.same tracks.state.locals
      fun name hname => .inl (hbound name (reads name hname))
    obtain ⟨_, s', hs, along, -⟩ := follows tracks.alongside ht
    have htake : FrameStep.take ev op false = perform ev op := by
      cases op <;> first | rfl | simp [Opcode.onStack] at hop
    have hafter : boundAfter bound op = bound := by
      cases op <;> first | rfl | simp [Opcode.onStack] at hop
    have hlocals := along.locals_here
    refine ⟨s', htake ▸ hs, ?_, by rwa [hafter, hlocals]⟩
    refine ⟨⟨?_, ?_⟩, ?_, ?_, along.heapHere.trans along.heapThere.symm, ⟨?_, along.stack⟩, ?_⟩
    · rw [along.here, along.there]
      exact tracks.same.code
    · rw [along.here, along.there]
      exact tracks.same.site
    · rw [along.here]
      exact tracks.here
    · rw [along.there]
      exact tracks.there
    · rw [hlocals, along.locals_there]
      exact tracks.state.locals
    · rw [along.here]
      exact tracks.running
  · obtain ⟨other, -, hperform, htake⟩ := perform_of_isCondition ev hop
    have hafter : boundAfter bound op = bound := by
      cases op <;> first | rfl | simp [Opcode.isCondition] at hop
    rw [hperform] at ht
    obtain ⟨w, u, hu, hjump⟩ := Step.bind_eq_ok.mp ht
    obtain ⟨ws, hw, rfl⟩ := pop_eq_ok.mp hu
    obtain ⟨v, vs, hs, -, hvs⟩ := tracks.popped hw
    refine ⟨s.withState { s.frame.state with stack := vs }, ?_, ?_, by rwa [hafter]⟩
    · rw [htake]
      exact Step.bind_eq_ok.mpr ⟨v, _, pop_eq_ok.mpr ⟨vs, hs, rfl⟩, rfl⟩
    · have popped := tracks.withState (a := { s.frame.state with stack := vs })
        (b := { t.frame.state with stack := ws }) ⟨tracks.state.locals, hvs⟩
      rw [jump_eq_ok] at hjump
      rcases enter_eq_ok.mp hjump with ⟨-, -, pending, -, rfl⟩ | ⟨-, rfl⟩
      · exact ⟨⟨popped.same.code, popped.same.site⟩, popped.here, popped.there, popped.heap,
          popped.state, popped.running⟩
      · exact popped
  · rw [perform] at ht
    obtain ⟨w, u, hu, hstore⟩ := Step.bind_eq_ok.mp ht
    obtain ⟨ws, hw, rfl⟩ := pop_eq_ok.mp hu
    obtain ⟨v, vs, hs, hvw, hvs⟩ := tracks.popped hw
    rw [storeLocal_apply (by exact tracks.there)] at hstore
    cases hstore
    refine ⟨s.withState ⟨s.frame.state.locals.insert name v, vs⟩, ?_,
      tracks.withState ⟨tracks.state.locals.insert hvw, hvs⟩, hbound.insert⟩
    refine Step.bind_eq_ok.mpr ⟨v, _, pop_eq_ok.mpr ⟨vs, hs, rfl⟩, ?_⟩
    rw [storeLocal_apply (by exact tracks.here)]
    rfl
  · rw [perform, deleteLocal_apply tracks.there] at ht
    cases ht
    exact ⟨_, deleteLocal_apply tracks.here,
      tracks.withState ⟨tracks.state.locals.erase, tracks.state.stack⟩, hbound.erase⟩
  · rw [perform] at ht
    obtain ⟨w, ws, u, hw, hu, hpush⟩ := iterate_eq_ok.mp ht
    obtain ⟨v, vs, hs, -, -⟩ := tracks.popped hw
    have item : Variable.TrackedBy (.ofValueAt .any (.line s.frame.line))
        (.ofValueAt .any (.line u.frame.line)) := .ofValueAt (Value.coveredBy_refl .any) .any _ _
    have pushed := tracks.withState (a := ⟨s.frame.state.locals, _ :: s.frame.state.stack⟩)
      (b := ⟨t.frame.state.locals, _ :: t.frame.state.stack⟩)
      ⟨tracks.state.locals, .cons item tracks.state.stack⟩
    refine ⟨_, Step.bind_eq_ok.mpr ⟨v, s, peek_eq_ok.mpr ⟨0, rfl, by simp [hs], rfl⟩, rfl⟩, ?_,
      hbound⟩
    rcases enter_eq_ok.mp hu with ⟨-, -, pending, -, rfl⟩ | ⟨-, rfl⟩
    · cases hpush
      exact ⟨⟨pushed.same.code, pushed.same.site⟩, pushed.here, pushed.there, pushed.heap,
        pushed.state, pushed.running⟩
    · cases hpush
      exact pushed
  · cases flow
  · cases flow
  · cases flow

/-- The path leaves the block: its state awaits it at the target. -/
theorem take_leaps (hop : op.isLocal = true) (jumps : op.jumpTarget? = some target)
    (forward : t.frame.block < target) (tracks : Tracks s t) (proper : t.frame.Proper)
    (ht : perform ev op t = (.ok (), t')) :
    ∃ vs, FrameStep.take ev op true s =
        (.ok (), s.withState { s.frame.state with stack := vs }) ∧
      Awaits t'.frame.pending target { s.frame.state with stack := vs } := by
  rcases isLocal_cases hop with
    hop | hop | ⟨name, rfl⟩ | ⟨name, rfl⟩ | ⟨other, rfl⟩ | ⟨other, hop⟩ | rfl
  · cases op <;> simp_all [Opcode.onStack, Opcode.jumpTarget?]
  · obtain ⟨other, hother, hperform, htake⟩ := perform_of_isCondition ev hop
    obtain rfl : other = target := Option.some.inj (hother.symm.trans jumps)
    rw [hperform] at ht
    obtain ⟨w, u, hu, hjump⟩ := Step.bind_eq_ok.mp ht
    obtain ⟨ws, hw, rfl⟩ := pop_eq_ok.mp hu
    obtain ⟨v, vs, hs, -, hvs⟩ := tracks.popped hw
    obtain ⟨-, hstate⟩ := proper_popped proper hw
    rw [jump_eq_ok] at hjump
    refine ⟨vs, ?_, enter_awaits (s := t.withState { t.frame.state with stack := ws })
      ⟨hstate, proper.pending, proper.final, proper.returns⟩ hstate
      ⟨tracks.state.locals, hvs⟩ forward hjump⟩
    rw [htake]
    exact Step.bind_eq_ok.mpr ⟨v, _, pop_eq_ok.mpr ⟨vs, hs, rfl⟩, rfl⟩
  · cases jumps
  · cases jumps
  · obtain rfl : other = target := Option.some.inj jumps
    rw [perform] at ht
    obtain ⟨w, ws, u, hw, hu, hpush⟩ := iterate_eq_ok.mp ht
    obtain ⟨v, vs, hs, -, hvs⟩ := tracks.popped hw
    obtain ⟨-, hstate⟩ := proper_popped proper hw
    have popped : BlockState.TrackedBy { s.frame.state with stack := vs }
        { t.frame.state with stack := ws } := ⟨tracks.state.locals, hvs⟩
    have awaits := enter_awaits proper hstate popped forward hu
    cases hpush
    exact ⟨vs, Step.bind_eq_ok.mpr ⟨v, _, pop_eq_ok.mpr ⟨vs, hs, rfl⟩, rfl⟩, awaits⟩
  · have hjump : perform ev op = jump other := by rcases hop with rfl | rfl <;> rfl
    have htake : FrameStep.take ev op true = pure () := by rcases hop with rfl | rfl <;> rfl
    obtain rfl : other = target := by rcases hop with rfl | rfl <;> exact Option.some.inj jumps
    rw [hjump, jump_eq_ok] at ht
    refine ⟨s.frame.state.stack, ?_, enter_awaits proper proper.state tracks.state forward ht⟩
    rw [htake]
    rfl
  · cases jumps

/-- The path ends: the return is gathered. -/
theorem take_returns (tracks : Tracks s t) (proper : t.frame.Proper)
    (ht : perform ev .returnValue t = (.ok (), t')) :
    ∃ s' v, (∀ jumps, FrameStep.take ev .returnValue jumps s = (.ok (), s')) ∧
      s'.frame.returns = [v] ∧ t'.frame.HasReturned s'.frame.state.locals v := by
  rw [perform] at ht
  obtain ⟨ws, w, hw, rfl⟩ := returnTop_eq_ok.mp ht
  obtain ⟨v, vs, hs, hvw, -⟩ := tracks.popped hw
  refine ⟨_, v, fun _ => returnTop_eq_ok.mpr ⟨vs, v, hs, rfl⟩, ?_, ?_, w, ?_, hvw⟩
  · simp [tracks.running]
  · exact tracks.state.locals.mergeLocals_right proper.final proper.state.locals
  · simp

end Moves

/-! ## Whole paths -/

section Paths

variable {ev : Evaluator} {s t u done : Execution} {blocks : List Block} {index target : Nat}
  {rest : List Instruction} {moves : List Move} {bound : List String}

/-- The execution that joins paths arrives where the other one goes on. -/
theorem Tracks.arrive {first : Nat} {state : BlockState} (tracks : Tracks s t)
    (advances : Advances first t u) (tracked : state.TrackedBy u.frame.state) :
    Tracks (s.withState state) u where
  same := ⟨tracks.same.code.trans advances.code.symm, tracks.same.site.trans advances.site.symm⟩
  here := tracks.here
  there := advances.kind.trans tracks.there
  heap := tracks.heap.trans advances.heap.symm
  state := tracked
  running := tracks.running

/-- From any point of a path on, the path returns and what the frame has gathered when it is done
tracks the return. -/
theorem Forward.covered (path : Forward blocks index rest moves)
    (hlocal : ∀ block ∈ blocks, ∀ i ∈ block, i.opcode.isLocal = true)
    (hrest : ∀ i ∈ rest, i.opcode.isLocal = true) (hindex : t.frame.block = index)
    (tracks : Tracks s t) (proper : t.frame.Proper) (hbound : BoundIn bound s.frame.state.locals)
    (reads : ReadsBound bound moves)
    (run : finishFrom ev blocks index rest t = (.ok (), done)) :
    ∃ s' v, followAll ev moves s = (.ok (), s') ∧ s'.frame.returns = [v] ∧
      done.frame.HasReturned s'.frame.state.locals v := by
  induction path generalizing s t bound with
  | @ret index instruction rest returns =>
    obtain ⟨u, hperform, h⟩ := finishFrom_cons run
    have lined := tracks.atLine instruction.line instruction.line
    have proper' := (advances_atLine proper instruction.line).proper
    rw [returns] at hperform h
    obtain ⟨s', var, htake, hreturns, hreturned⟩ := take_returns lined proper' hperform
    have hop : Opcode.returnValue.isLocal = true := rfl
    obtain ⟨performed, -⟩ := perform_advances hop lined.there proper' hperform
    -- what was gathered at the return stays gathered while the blocks behind it run
    have hrun : runBlocks ev (index + 1) (blocks.drop (index + 1)) u = (.ok (), done) := by
      simpa [flowAfter] using h
    have later := runBlocks_advances hlocal (performed.kind.trans lined.there) performed.proper hrun
    refine ⟨s', var, Step.bind_eq_ok.mpr ⟨(), s', ?_, rfl⟩, hreturns, later.returned _ _ hreturned⟩
    change FrameStep.take ev instruction.opcode false (s.atLine instruction.line) = _
    rw [returns]
    exact htake false
  | @next index instruction rest moves flow more ih =>
    obtain ⟨hop, hrest⟩ := List.forall_mem_cons.mp hrest
    obtain ⟨u, hperform, h⟩ := finishFrom_cons run
    have lined := tracks.atLine instruction.line instruction.line
    have proper' := (advances_atLine proper instruction.line).proper
    obtain ⟨performed, hblock⟩ := perform_advances hop lined.there proper' hperform
    obtain ⟨s', htake, tracks', hbound'⟩ :=
      take_tracks hop flow lined hbound reads.1 hperform
    have hrun : finishFrom ev blocks index rest u = (.ok (), done) := by simpa [flow] using h
    obtain ⟨s'', var, hfollow, hreturned⟩ :=
      ih hrest (hblock.trans hindex) tracks' performed.proper hbound' reads.2 hrun
    exact ⟨s'', var, Step.bind_eq_ok.mpr ⟨(), s', htake, hfollow⟩, hreturned⟩
  | @leap index target instruction rest block moves jumps forward found more ih =>
    obtain ⟨hop, hrest⟩ := List.forall_mem_cons.mp hrest
    obtain ⟨u, hperform, h⟩ := finishFrom_cons run
    have lined := tracks.atLine instruction.line instruction.line
    have proper' := (advances_atLine proper instruction.line).proper
    obtain ⟨performed, -⟩ := perform_advances hop lined.there proper' hperform
    obtain ⟨vs, htake, awaits⟩ := take_leaps hop jumps (hindex ▸ forward) lined proper' hperform
    have function := performed.kind.trans lined.there
    -- the run may still execute the rest of the block, but its target comes after it
    obtain ⟨v, between, hrun⟩ : ∃ v, Advances 0 u v ∧
        runBlocks ev (index + 1) (blocks.drop (index + 1)) v = (.ok (), done) := by
      rcases h with ⟨-, h⟩ | ⟨-, h⟩
      · exact ⟨u, .refl performed.proper, h⟩
      · exact finishFrom_splits hrest function performed.proper h
    obtain ⟨w, arrives, hblock, tracked, hfinish⟩ := runBlocks_reaches hlocal
      (between.kind.trans function) between.proper forward found
      (between.awaits target _ (Nat.zero_le _) awaits) hrun
    have hafter : boundAfter bound instruction.opcode = bound := by
      cases hi : instruction.opcode <;> simp_all [Opcode.jumpTarget?, boundAfter]
    obtain ⟨s'', var, hfollow, hreturned⟩ := ih (hlocal block (List.mem_of_getElem? found)) hblock
      (lined.arrive ((performed.trans between).trans arrives) tracked) arrives.proper
      hbound (hafter ▸ reads.2) hfinish
    exact ⟨s'', var, Step.bind_eq_ok.mpr ⟨(), _, htake, hfollow⟩, hreturned⟩
  | @fall index block moves found more ih =>
    obtain ⟨hlt, -⟩ := List.getElem?_eq_some_iff.mp found
    obtain ⟨u, hjump, hrun⟩ := finishFrom_nil hlt run
    rw [jump_eq_ok] at hjump
    obtain ⟨entered, -, -⟩ := enter_advances proper proper.state hjump
    have awaits := enter_awaits proper proper.state tracks.state (by omega) hjump
    obtain ⟨w, arrives, hblock, tracked, hfinish⟩ := runBlocks_reaches hlocal
      (entered.kind.trans tracks.there) entered.proper (Nat.le_refl _) found awaits hrun
    exact ih (hlocal block (List.mem_of_getElem? found)) hblock
      (tracks.arrive (entered.trans arrives) tracked) arrives.proper hbound reads hfinish

/-- A function frame in which nothing has run yet. -/
structure Frame.Fresh (frame : Frame) (locals : NameMap Variable) : Prop where
  kind : frame.kind = .function
  locals : frame.initialLocals = locals
  state : frame.state = ⟨[], []⟩
  pending : frame.pending = []
  final : frame.finalLocals = []
  returns : frame.returns = []

/-- A fresh frame whose run succeeds follows every path, and has gathered what the path ends
with. -/
theorem Frame.Fresh.covered {ev : Evaluator} {frame : Frame} {locals : NameMap Variable}
    {context : Context} {t : Execution} {moves : List Move} (fresh : frame.Fresh locals)
    (hlocal : frame.code.isLocal = true) (proper : NameMap.Proper locals)
    (run : runBlocks ev 0 frame.code.blocks
      ⟨{ frame with pending := startPending frame }, context⟩ = (.ok (), t))
    (path : frame.code.Path moves) (reads : ReadsBound locals.names moves) :
    ∃ s v, followAll ev moves ⟨{ frame with state := .ofLocals frame.initialLocals }, context⟩ =
        (.ok (), s) ∧ s.frame.returns = [v] ∧ t.frame.HasReturned s.frame.state.locals v ∧
      t.frame.Proper := by
  obtain ⟨first, found, path⟩ := path
  have hblocks : ∀ block ∈ frame.code.blocks, ∀ i ∈ block, i.opcode.isLocal = true := by
    simpa [CodeOver.isLocal] using hlocal
  have hstate : (BlockState.ofLocals locals).Proper := ⟨proper, by simp [BlockState.ofLocals]⟩
  have hpending : startPending frame = [(0, .ofLocals locals)] := by
    simp [startPending, fresh.pending, fresh.locals]
  have start : ({ frame with pending := startPending frame } : Frame).Proper := by
    refine ⟨?_, ?_, ?_, ?_⟩
    · simpa [fresh.state] using ⟨by simp [NameMap.Proper], by simp⟩
    · simpa [hpending, PendingProper] using hstate
    · simp [fresh.final, NameMap.Proper]
    · simp [fresh.returns]
  have awaits : Awaits (startPending frame) 0 (.ofLocals locals) :=
    ⟨.ofLocals locals, by simp [hpending], .refl hstate⟩
  obtain ⟨u, arrives, hblock, tracked, hfinish⟩ :=
    runBlocks_reaches hblocks fresh.kind start (Nat.le_refl 0) found awaits run
  have tracks : Tracks ⟨{ frame with state := .ofLocals frame.initialLocals }, context⟩ u :=
    ⟨⟨arrives.code.symm, arrives.site.symm⟩, fresh.kind, arrives.kind.trans fresh.kind,
      arrives.heap.symm, fresh.locals ▸ tracked, fresh.returns⟩
  have hbound : BoundIn locals.names (BlockState.ofLocals frame.initialLocals).locals :=
    fresh.locals ▸ boundIn_names frame.initialLocals
  obtain ⟨s, v, hfollow, hreturns, hreturned⟩ := path.covered hblocks
    (hblocks first (List.mem_of_getElem? found)) hblock tracks arrives.proper hbound reads hfinish
  exact ⟨s, v, hfollow, hreturns, hreturned, (runBlocks_advances hblocks fresh.kind start run).proper⟩

end Paths

/-- Joins are sound. Where a function frame that stays within its locals and stack runs to its end,
every forward path through its code can be followed alone, and what the path ends with is covered:
each local by the final local of the same name, and the returned variable by the returned one. -/
theorem Frame.runToEnd_covers_path (ev : Evaluator) (context : Context) (name : String) (code : Code)
    (site : CodeSite) (function : Option FunctionId) (globals cells : ScopeId)
    (enclosing : List ScopeId) (locals : NameMap Variable) {done : Frame} {context' : Context}
    (hlocal : code.isLocal = true) (proper : NameMap.Proper locals)
    (run : (Frame.start name .function code site function globals enclosing cells locals).runToEnd
      ev context = (.ok done, context'))
    {moves : List Move} (path : code.Path moves) (reads : ReadsBound locals.names moves) :
    ∃ alone context'', (Frame.start name .function code site function globals enclosing cells
        locals).runAlong ev moves context = (.ok alone, context'') ∧
      (∀ name v, alone.state.locals.get? name = some v →
        ∃ w, done.finalLocals.get? name = some w ∧ v.coveredBy w = true) ∧
      ∃ v w, alone.returned? = some v ∧ done.returned? = some w ∧ v.coveredBy w = true := by
  obtain ⟨-, t, hrun, hdone⟩ := FrameStep.runAll_eq_ok.mp (Frame.runToEnd_eq_ok.mp run)
  have fresh : (Frame.start name .function code site function globals enclosing cells
      locals).Fresh locals := ⟨rfl, rfl, rfl, rfl, rfl, rfl⟩
  obtain ⟨s, v, hfollow, hreturns, hreturned, properDone⟩ :=
    fresh.covered hlocal proper hrun path reads
  obtain rfl : done = { t.frame with finished := true } := by
    cases hdone
    rfl
  refine ⟨s.frame, s.context, ?_, ?_, ?_⟩
  · rw [Frame.runAlong, hfollow]
    rfl
  · intro name v hv
    obtain ⟨w, hw, tracked⟩ := hreturned.locals name v hv
    exact ⟨w, hw, tracked.covered⟩
  · obtain ⟨w, hw, tracked⟩ := hreturned.returned
    have hne : t.frame.returns ≠ [] := List.ne_nil_of_mem hw
    exact ⟨.merge [v], .merge t.frame.returns, by simp [Frame.returned?, hreturns],
      by simp [Frame.returned?, hne], tracked.merge hw properDone.returns⟩

/-! ## A conditional -/

/-- The code of a function that binds a name in both branches of a conditional and returns it. -/
def branching : Code where
  name := "f"
  qualName := "f"
  fileName := "m.py"
  firstLine := 1
  version := none
  argCount := 1
  posOnlyArgCount := 0
  kwOnlyArgCount := 0
  varArgs := false
  varKeywords := false
  varNames := ["c", "x"]
  consts := [.int 1, .str "s"]
  blocks := [[⟨.loadFast "c", 2⟩, ⟨.popJumpIfFalse 2, 2⟩],
    [⟨.loadConst 0, 3⟩, ⟨.storeFast "x", 3⟩, ⟨.jumpForward 3, 3⟩],
    [⟨.loadConst 1, 5⟩, ⟨.storeFast "x", 5⟩],
    [⟨.loadFast "x", 6⟩, ⟨.returnValue, 6⟩]]

/-- The moves through the second branch. -/
def secondBranch : List Move :=
  [⟨⟨.loadFast "c", 2⟩, false⟩, ⟨⟨.popJumpIfFalse 2, 2⟩, true⟩, ⟨⟨.loadConst 1, 5⟩, false⟩,
    ⟨⟨.storeFast "x", 5⟩, false⟩, ⟨⟨.loadFast "x", 6⟩, false⟩, ⟨⟨.returnValue, 6⟩, false⟩]

theorem secondBranch_path : branching.Path secondBranch :=
  ⟨_, rfl, .next rfl <| .leap rfl (by decide) rfl <| .next rfl <| .next rfl <| .fall rfl <|
    .next rfl <| .ret rfl⟩

theorem secondBranch_reads : ReadsBound ["c"] secondBranch := by
  simp [ReadsBound, secondBranch, boundAfter]

/-- The conditional runs to its end, and covers the path through its second branch. -/
theorem branching_covers_secondBranch :
    ∃ done context', (Frame.start "f" .function branching ⟨0, []⟩ none ⟨0⟩ [] ⟨1⟩
        [("c", Value.any.var)]).runToEnd (.atDepth 0) (.new .standard) = (.ok done, context') ∧
      ∃ alone context'', (Frame.start "f" .function branching ⟨0, []⟩ none ⟨0⟩ [] ⟨1⟩
          [("c", Value.any.var)]).runAlong (.atDepth 0) secondBranch (.new .standard) =
          (.ok alone, context'') ∧
        (∀ name v, alone.state.locals.get? name = some v →
          ∃ w, done.finalLocals.get? name = some w ∧ v.coveredBy w = true) ∧
        ∃ v w, alone.returned? = some v ∧ done.returned? = some w ∧ v.coveredBy w = true := by
  have proper : NameMap.Proper [("c", Value.any.var)] := by
    simpa [NameMap.Proper] using Variable.Proper.var .any
  obtain ⟨done, context', run⟩ := Step.exists_of_isOk
    (r := (Frame.start "f" .function branching ⟨0, []⟩ none ⟨0⟩ [] ⟨1⟩
      [("c", Value.any.var)]).runToEnd (.atDepth 0) (.new .standard)) (by decide +kernel)
  exact ⟨done, context', run, Frame.runToEnd_covers_path _ _ _ _ _ _ _ _ _ _ rfl proper run
    secondBranch_path secondBranch_reads⟩

end StubInference
