import StubInference.Proofs.Frame.Outline

/-!
# Runs follow the outline

Where the outline of a code object works out, every run that succeeds has its moments, and no run ends
in a fault of the stack of its own. While a run goes on, the entry states of its blocks have at least
the depths that are foretold so far, and no others than the outline gives them in the end. A frame that
a fault has stopped may run again, with the entry states that were left behind.

## Main definitions

* `Frame.Held`, `Frame.Tallies`, `Frame.Inside` — a frame whose entry states have the depths foretold
* `FrameStep.Ends` — what a step answers and leaves
* `Frame.Given` — a frame as it can be given to a run

## Main results

* `FrameStep.perform_ends`, `FrameStep.traceAll_ends` — an instruction and a run do what is foretold
* `Frame.trace_eq_outline` — a run that succeeds has the moments of the outline
* `Frame.runToEnd_avoids` — a run ends in no fault of the stack where the calls it makes do not
-/

namespace StubInference

open Step FrameStep

/-! ## Frames on their way -/

/-- The entry states of a frame have the depths of a table. -/
structure Frame.Held (code : Code) (table : Depths) (frame : Frame) : Prop where
  code : frame.code = code
  within : ∀ block, ∀ depth ∈ depthAt frame.pending block, table block = some depth

/-- The entry states of a frame, from one block on, are at least those with known depths. -/
structure Frame.Tallies (code : Code) (table : Depths) (index : Nat) (known : Depths)
    (frame : Frame) : Prop extends Frame.Held code table frame where
  known : ∀ block, index ≤ block → ∀ depth ∈ known block, depthAt frame.pending block = some depth

/-- A frame inside a block, with the given depth of its stack. -/
structure Frame.Inside (code : Code) (table : Depths) (index : Nat) (known : Depths) (depth : Nat)
    (frame : Frame) : Prop extends Frame.Tallies code table (index + 1) known frame where
  block : frame.block = index
  depth : frame.state.stack.length = depth

/-- A path goes on behind a part of a block just where that is foretold, with the depth foretold. -/
def Frame.Behind (code : Code) (table : Depths) (index : Nat) (known : Depths) (behind : Option Nat)
    (flow : Flow) (frame : Frame) : Prop :=
  frame.Tallies code table (index + 1) known ∧ frame.block = index ∧
    match behind with
    | some depth => flow = .next ∧ frame.state.stack.length = depth
    | none => flow = .stop

namespace FrameStep

variable {α β : Type} {watched : Option Fault.Kind} {ev : Evaluator} {code : Code}
  {table known more : Depths} {index depth : Nat} {s : Execution}

/-- What a step from an execution answers and leaves, and what it leaves where it ends in a fault,
which is not of the kind watched for. -/
def Ends (watched : Option Fault.Kind) (m : FrameStep α) (s : Execution)
    (Q : α → Frame → Prop) (E : Frame → Prop) : Prop :=
  (∀ a t, m s = (.ok a, t) → Q a t.frame) ∧
    ∀ fault t, m s = (.error fault, t) → fault.Outside watched ∧ E t.frame

theorem Ends.bind {m : FrameStep α} {f : α → FrameStep β} {Q : α → Frame → Prop}
    {R : β → Frame → Prop} {E : Frame → Prop} (first : Ends watched m s Q E)
    (second : ∀ a t, Q a t.frame → Ends watched (f a) t R E) : Ends watched (m >>= f) s R E := by
  rcases hm : m s with ⟨fault | a, t⟩
  · have h : (m >>= f) s = (.error fault, t) := by rw [Step.bind_apply, hm]
    refine ⟨fun _ _ e => (nomatch h.symm.trans e), fun fault' t' e => ?_⟩
    cases h.symm.trans e
    exact first.2 fault t hm
  · have h : (m >>= f) s = f a t := by rw [Step.bind_apply, hm]
    obtain ⟨ok, error⟩ := second a t (first.1 a t hm)
    exact ⟨fun b u e => ok b u (h.symm.trans e), fun fault u e => error fault u (h.symm.trans e)⟩

theorem Ends.ok {m : FrameStep α} {Q : α → Frame → Prop} {E : Frame → Prop} {a : α} {t : Execution}
    (h : m s = (.ok a, t)) (hQ : Q a t.frame) : Ends watched m s Q E := by
  refine ⟨fun b u e => ?_, fun _ _ e => (nomatch h.symm.trans e)⟩
  cases h.symm.trans e
  exact hQ

/-- A step behind one that is known to succeed. -/
theorem Ends.after {m : FrameStep α} {f : α → FrameStep β} {Q : β → Frame → Prop}
    {E : Frame → Prop} {a : α} {t : Execution} (h : m s = (.ok a, t)) (second : Ends watched (f a) t Q E) :
    Ends watched (m >>= f) s Q E := by
  unfold Ends
  rw [Step.bind_apply, h]
  exact second

theorem Ends.error {m : FrameStep α} {Q : α → Frame → Prop} {E : Frame → Prop} {fault : Fault}
    {t : Execution} (h : m s = (.error fault, t)) (outside : fault.Outside watched)
    (hE : E t.frame) : Ends watched m s Q E := by
  refine ⟨fun _ _ e => (nomatch h.symm.trans e), fun fault' u e => ?_⟩
  cases h.symm.trans e
  exact ⟨outside, hE⟩

/-- An edge that is foretold. -/
theorem enter_ends {target : Nat} {state : BlockState}
    (hs : s.frame.Inside code table index known depth)
    (followed : known.follow code.blocks.length index target state.stack.length = some more)
    (within : ∀ block, ∀ d ∈ more block, table block = some d) :
    Ends watched (enter target state) s
      (fun _ frame => frame.Inside code table index more depth) (Frame.Held code table) := by
  rcases Depths.follow_eq_some.mp followed with ⟨forward, -, rfl⟩ | ⟨backward, rfl⟩
  · have follows : Follows s.frame target := by rwa [Follows, hs.block, hs.code]
    have entry : table target = some state.stack.length := within target _ (if_pos rfl)
    -- what waits there already has the depth that is foretold for the block
    rcases enter_depth fun _ d hd => Option.some.inj ((hs.within target d hd).symm.trans entry) with
      ⟨fault, h, plain⟩ | ⟨pending, h, depths⟩
    · exact .error h (.of_kind? plain) hs.toHeld
    · simp only [follows, true_and] at depths
      refine .ok h ⟨⟨⟨hs.code, fun block d hd => ?_⟩, fun block hblock d hd => ?_⟩, hs.block,
        hs.depth⟩
      · rw [depths] at hd
        split at hd
        case isTrue e => exact e ▸ entry.trans hd
        case isFalse => exact hs.within block d hd
      · rw [depths]
        unfold Depths.put at hd
        by_cases e : target = block
        · rw [if_pos e]
          rwa [if_pos e.symm] at hd
        · rw [if_neg e]
          rw [if_neg (Ne.symm e)] at hd
          exact hs.known block hblock d hd
  · have astray : ¬ Follows s.frame target := by rwa [Follows, hs.block, hs.code]
    rcases enter_depth fun follows => absurd follows astray with
      ⟨fault, h, plain⟩ | ⟨pending, h, depths⟩
    · exact .error h (.of_kind? plain) hs.toHeld
    · simp only [astray, false_and, if_false] at depths
      refine .ok h ⟨⟨⟨hs.code, fun block d hd => ?_⟩, fun block hblock d hd => ?_⟩, hs.block,
        hs.depth⟩
      · exact hs.within block d (by rwa [depths] at hd)
      · rw [depths]
        exact hs.known block hblock d hd

/-- A step that spends a known number of entries leaves the entry states as they are. -/
theorem Spends.ends {m : FrameStep α} {d : Nat} (hs : s.frame.Inside code table index known depth)
    (h : Spends watched s.frame depth m (· = d)) :
    Ends watched m s (fun _ frame => frame.Inside code table index known d)
      (Frame.Held code table) := by
  obtain ⟨still, ok, error⟩ := h s (.refl _) hs.depth
  have held : Frame.Held code table (m s).2.frame :=
    ⟨still.code.trans hs.code, fun block d hd => hs.within block d (still.pending ▸ hd)⟩
  rcases hm : m s with ⟨fault | a, t⟩ <;> rw [hm] at still held ok error
  · exact .error hm (error fault rfl) held
  · refine .ok hm ⟨⟨held, fun block hblock d hd => ?_⟩, still.block.trans hs.block, ok a rfl⟩
    rw [still.pending]
    exact hs.known block hblock d hd

/-- An instruction that leads to another block takes what it takes before the edge. -/
theorem perform_jump_ends {op : Opcode} {use : StackUse} {target : Nat}
    (hs : s.frame.Inside code table index known depth) (jumps : op.jumpTarget? = some target)
    (uses : op.stackUse? = some use) (least : use.least ≤ depth)
    (followed : known.follow code.blocks.length index target (depth - use.taken) = some more)
    (within : ∀ block, ∀ d ∈ more block, table block = some d) :
    Ends watched (perform ev op) s
      (fun _ frame => frame.Inside code table index more (depth - use.taken + use.put))
      (Frame.Held code table) := by
  cases op <;> cases jumps <;> cases uses
  case forIter =>
    have deep := hs.depth
    cases stack : s.frame.state.stack with
    | nil =>
      rw [stack, List.length_nil] at deep
      exact absurd least (by dsimp only; omega)
    | cons top rest =>
      rw [stack, List.length_cons] at deep
      obtain rfl : depth = rest.length + 1 := deep.symm
      have iterating : perform ev (.forIter target) s =
          (enter target { s.frame.state with stack := rest } >>= fun _ => pushValue .any) s := by
        rw [perform, iterate, bind_of_ok (fromFrame_apply _ _), stack]
      unfold Ends
      rw [iterating]
      exact Ends.bind (enter_ends hs followed within) fun _ t ht => Spends.ends ht (spends_pushValue _)
  case jumpForward | jumpBackward => exact enter_ends hs (by rwa [hs.depth]) within
  case popJumpIfFalse | popJumpIfTrue | popJumpIfNone | popJumpIfNotNone =>
    refine Ends.bind (Spends.ends hs (spends_pop _ fun _ => least)) fun _ t ht => ?_
    exact enter_ends ht (by rwa [ht.depth]) within

/-- An instruction whose use is fixed does what is foretold for it. -/
theorem perform_ends {op : Opcode} {use : StackUse} (uncounted : watched ≠ some .word)
    (hev : ev.Avoids watched)
    (hs : s.frame.Inside code table index known depth) (uses : op.stackUse? = some use)
    (least : use.least ≤ depth)
    (leap : known.leap code.blocks.length index op (depth - use.taken) = some more)
    (within : ∀ block, ∀ d ∈ more block, table block = some d) :
    Ends watched (perform ev op) s
      (fun _ frame => frame.Inside code table index more (depth - use.taken + use.put))
      (Frame.Held code table) := by
  unfold Depths.leap at leap
  split at leap
  case h_1 target jumps => exact perform_jump_ends hs jumps uses least leap within
  case h_2 jumps =>
    obtain rfl := Option.some.inj leap
    have fits : op.Fits watched depth :=
      ⟨fun _ => ⟨use, uses, least⟩, fun word => absurd word uncounted⟩
    exact Spends.ends hs ((perform_spends hev jumps fits).mono fun d spent => spent use uses)

/-! ### Instructions and blocks -/

theorem traceInstructions_ends (uncounted : watched ≠ some .word) (hev : ev.Avoids watched)
    {instructions : List Instruction} {foretold : Foretold} (hs : s.frame.Inside code table index known depth)
    (h : foretellInstructions code.blocks.length index instructions depth known = some foretold)
    (within : ∀ block, ∀ d ∈ foretold.depths block, table block = some d) :
    Ends watched (traceInstructions ev index instructions) s
      (fun answer frame => answer.1 = foretold.moments ∧
        frame.Behind code table index foretold.depths foretold.behind answer.2)
      (Frame.Held code table) := by
  induction instructions generalizing s depth known foretold with
  | nil =>
    cases h
    exact .ok rfl ⟨rfl, hs.toTallies, hs.block, rfl, hs.depth⟩
  | cons instruction rest ih =>
    obtain rfl := hs.depth
    obtain ⟨use, more, uses, least, leap, h⟩ := foretellInstructions_cons.mp h
    rw [traceInstructions]
    -- the line and the position are no part of what is foretold
    refine .after rfl (.after rfl (.after rfl ?_))
    have ht : (s.atLine instruction.line).frame.Inside code table index known
        s.frame.state.stack.length := ⟨⟨⟨hs.code, hs.within⟩, hs.known⟩, hs.block, hs.depth⟩
    have executed (after : ∀ block, ∀ d ∈ more block, table block = some d) :
        Ends watched (execute ev instruction.opcode) (s.atLine instruction.line)
          (fun flow frame => flow = flowAfter instruction.opcode ∧
            frame.Inside code table index more
              (s.frame.state.stack.length - use.taken + use.put))
          (Frame.Held code table) :=
      (perform_ends uncounted hev ht uses least leap after).bind fun _ u hu => .ok rfl ⟨rfl, hu⟩
    rcases h with ⟨flow, rfl⟩ | ⟨flow, behind, hbehind, rfl⟩
    · refine (executed within).bind fun flow' u hu => ?_
      obtain ⟨rfl, hu⟩ := hu
      rw [flow]
      exact .ok rfl ⟨rfl, hu.toTallies, hu.block, rfl⟩
    · have tail : more.Extends index behind.depths := foretellInstructions_extends hbehind
      refine (executed fun block d hd => within block d (tail.within block d hd)).bind
        fun flow' u hu => ?_
      obtain ⟨rfl, hu⟩ := hu
      rw [flow]
      refine (ih hu hbehind within).bind fun answer v hv => ?_
      exact .ok rfl ⟨by rw [hv.1], hv.2⟩

/-- The edge from the end of a block into the next one, which the last block does not have. -/
theorem fall_ends {isLast : Bool} {foretold : Foretold} {fallen : Depths} {flow : Flow}
    {next : FrameStep α} {Q : α → Frame → Prop}
    (last : (!isLast) = true ↔ index + 1 < code.blocks.length)
    (hs : s.frame.Behind code table index foretold.depths foretold.behind flow)
    (h : foretold.depths.fall code.blocks.length index foretold.behind = some fallen)
    (within : ∀ block, ∀ d ∈ fallen block, table block = some d)
    (hnext : ∀ t : Execution, t.frame.Tallies code table (index + 1) fallen →
      Ends watched next t Q (Frame.Held code table)) :
    Ends watched (if flow = .next ∧ (!isLast) = true then jump (index + 1) >>= fun _ => next else next)
      s Q (Frame.Held code table) := by
  obtain ⟨tallies, hblock, hbehind⟩ := hs
  cases behind : foretold.behind with
  | none =>
    rw [behind] at h hbehind
    cases h
    rw [if_neg (by simp [hbehind])]
    exact hnext s tallies
  | some depth =>
    rw [behind] at h hbehind
    obtain ⟨rfl, hdepth⟩ := hbehind
    by_cases more : index + 1 < code.blocks.length
    · rw [if_pos ⟨rfl, last.mpr more⟩]
      have entered : Ends watched (jump (index + 1)) s
          (fun _ frame => frame.Inside code table index fallen s.frame.state.stack.length)
          (Frame.Held code table) := enter_ends ⟨tallies, hblock, rfl⟩ (by rwa [hdepth]) within
      exact entered.bind fun _ t ht => hnext t ht.toTallies
    · rw [if_neg fun e => more (last.mp e.2)]
      rcases Depths.follow_eq_some.mp h with ⟨follows, -⟩ | ⟨-, rfl⟩
      · exact absurd follows.2 more
      · exact hnext s tallies

/-- A block is run just where that is foretold. -/
theorem traceBlock_ends (uncounted : watched ≠ some .word) (hev : ev.Avoids watched) {block : Block}
    {rest : List Block} {moments : List Moment} (found : code.blocks.drop index = block :: rest)
    (hs : s.frame.Tallies code table index known)
    (h : foretellBlocks code.blocks.length index (block :: rest) known = some (moments, table)) :
    Ends watched (traceBlock ev index block rest.isEmpty) s
      (fun answer frame => ∃ fallen more, moments = answer ++ more ∧
        foretellBlocks code.blocks.length (index + 1) rest fallen = some (more, table) ∧
        frame.Tallies code table (index + 1) fallen)
      (Frame.Held code table) := by
  have length := congrArg List.length found
  rw [List.length_drop, List.length_cons] at length
  have isLast : (!rest.isEmpty) = true ↔ index + 1 < code.blocks.length := by
    rw [Bool.not_eq_true', List.isEmpty_eq_false_iff, ← List.length_pos_iff]
    omega
  cases reached : known index with
  | none =>
    -- no later edge leads here, so nothing waits here
    have unreached : s.frame.pending.find? (·.1 == index) = none := by
      cases waiting : s.frame.pending.find? (·.1 == index) with
      | none => rfl
      | some entry =>
        have wrong := hs.within index entry.2.stack.length (by simp [depthAt, waiting])
        rw [(foretellBlocks_extends h).upTo index (Nat.le_refl _), reached] at wrong
        cases wrong
    have skipped : traceBlock ev index block rest.isEmpty s = (.ok [], s) := by
      rw [traceBlock, Step.bind_apply, takePending_apply, unreached]
      rfl
    rw [foretellBlocks, reached] at h
    exact .ok skipped ⟨known, moments, rfl, h, hs.toHeld, fun other hother =>
      hs.known other (Nat.le_of_succ_le hother)⟩
  | some depth =>
    obtain ⟨foretold, fallen, more, hforetold, hfallen, hmore, rfl⟩ :=
      (foretellBlocks_reached reached).mp h
    have after := (foretellBlocks_extends hmore).within
    have before : ∀ block, ∀ d ∈ foretold.depths block, table block = some d := fun block d hd =>
      after block d ((Depths.fall_extends hfallen).within block d hd)
    obtain ⟨entry, waiting, hdepth⟩ :=
      Option.map_eq_some_iff.mp (hs.known index (Nat.le_refl _) depth reached)
    have taken : takePending index s = (.ok (some entry.2),
        ⟨{ s.frame with pending := s.frame.pending.filter (·.1 ≠ index) }, s.context⟩) := by
      rw [takePending_apply, waiting]
    rw [traceBlock]
    -- the entry state is taken out, and the block is entered with it
    refine .after taken (.after rfl ?_)
    have ht : (s.atBlock index entry.2).frame.Inside code table index known depth := by
      refine ⟨⟨⟨hs.code, fun other d hd => ?_⟩, fun other hother d hd => ?_⟩, rfl, hdepth⟩
      · rw [Execution.atBlock, depthAt_filter] at hd
        split at hd
        · cases hd
        · exact hs.within other d hd
      · rw [Execution.atBlock, depthAt_filter, if_neg (by omega)]
        exact hs.known other (Nat.le_of_succ_le hother) d hd
    refine (traceInstructions_ends uncounted hev ht hforetold before).bind fun answer t ht => ?_
    obtain ⟨hanswer, ht⟩ := ht
    refine fall_ends isLast ht hfallen after fun t ht => .ok rfl ⟨fallen, more, ?_, hmore, ht⟩
    rw [hdepth, hanswer]

/-- The blocks from one of them on. -/
theorem traceBlocks_ends (uncounted : watched ≠ some .word) (hev : ev.Avoids watched)
    {rest : List Block} {moments : List Moment} (found : code.blocks.drop index = rest) (hs : s.frame.Tallies code table index known)
    (h : foretellBlocks code.blocks.length index rest known = some (moments, table)) :
    Ends watched (traceBlocks ev index rest) s
      (fun answer frame => answer = moments ∧ frame.Held code table) (Frame.Held code table) := by
  induction rest generalizing index known s moments with
  | nil =>
    cases h
    exact .ok rfl ⟨rfl, hs.toHeld⟩
  | cons block rest ih =>
    have behind : code.blocks.drop (index + 1) = rest := by
      rw [← List.drop_drop, found, List.drop_one, List.tail_cons]
    refine (traceBlock_ends uncounted hev found hs h).bind fun answer t ht => ?_
    obtain ⟨fallen, more, rfl, hmore, ht⟩ := ht
    refine (ih behind ht hmore).bind fun answer' u hu => .ok rfl ⟨?_, hu.2⟩
    rw [hu.1]

/-- A whole run. -/
theorem traceAll_ends (uncounted : watched ≠ some .word) (hev : ev.Avoids watched)
    {moments : List Moment} (hs : s.frame.Held code table) (outline : code.outline? = some (moments, table)) :
    Ends watched (traceAll ev) s (fun answer frame => answer = moments ∧ frame.Held code table)
      (Frame.Held code table) := by
  obtain rfl := hs.code
  have first : table 0 = some 0 := (foretellBlocks_extends outline).within 0 0 rfl
  -- the first block is about to be entered with an empty stack, and the others as they were before
  have entries (block : Nat) : depthAt (startPending s.frame) block =
      if block = 0 then some 0 else depthAt s.frame.pending block := by
    rw [startPending, depthAt_cons, depthAt_filter]
    split <;> split <;> first | rfl | omega
  have started : Frame.Tallies s.frame.code table 0 .start
      { s.frame with pending := startPending s.frame } := by
    refine ⟨⟨rfl, fun block d hd => ?_⟩, fun block _ d hd => ?_⟩
    · rw [entries] at hd
      split at hd
      case isTrue e => exact e ▸ first.trans hd
      case isFalse => exact hs.within block d hd
    · unfold Depths.start at hd
      rw [entries]
      split at hd
      case isTrue e => rwa [if_pos e]
      case isFalse => cases hd
  rw [traceAll]
  refine .after (t := s) rfl ?_
  by_cases finished : s.frame.finished = true
  · simp only [finished, if_true]
    exact .error rfl (.of_kind? rfl) hs
  · simp only [finished]
    refine .after rfl ?_
    refine (traceBlocks_ends uncounted hev List.drop_zero started outline).bind fun answer t ht => ?_
    exact .after rfl (.ok rfl ⟨ht.1, ht.2.code, ht.2.within⟩)

end FrameStep

/-! ## Frames that are run -/

/-- A frame of a code object as it can be given to a run: a new one, or one that another run has left
behind. -/
inductive Frame.Given (code : Code) : Frame → Prop
  | start (name : String) (kind : FrameKind) (site : CodeSite) (function : Option FunctionId)
      (globals : ScopeId) (enclosing : List ScopeId) (cells : ScopeId)
      (locals : NameMap Variable) :
      Given code (.start name kind code site function globals enclosing cells locals)
  | again {ev : Evaluator} {frame left : Frame} {ctx ctx' : Context} {result : Except Fault Unit}
      (given : Given code frame) (run : frame.run ev ctx = (.ok (left, result), ctx')) :
      Given code left

namespace Frame

variable {watched : Option Fault.Kind} {ev : Evaluator} {code : Code} {frame left : Frame}
  {ctx ctx' : Context} {moments : List Moment} {table : Depths}

/-- The trace of a run together with what the run leaves. -/
theorem traceAll_of_run {result : Except Fault Unit}
    (run : frame.run ev ctx = (.ok (left, result), ctx')) :
    (∃ answer, traceAll ev ⟨frame, ctx⟩ = (.ok answer, ⟨left, ctx'⟩) ∧ result = .ok ()) ∨
      ∃ fault, traceAll ev ⟨frame, ctx⟩ = (.error fault, ⟨left, ctx'⟩) ∧ result = .error fault := by
  unfold Frame.run at run
  rw [← traceAll_forget, map_eq_pure_bind, Step.bind_apply] at run
  rcases htrace : traceAll ev ⟨frame, ctx⟩ with ⟨fault | answer, t⟩ <;> rw [htrace] at run <;>
    cases run
  · exact .inr ⟨fault, rfl, rfl⟩
  · exact .inl ⟨answer, rfl, rfl⟩

/-- The entry states that runs leave behind have the depths of the outline. -/
theorem Given.held (given : Given code frame) (outline : code.outline? = some (moments, table)) :
    frame.Held code table := by
  induction given with
  | start => exact ⟨rfl, nofun⟩
  | @again ev frame left ctx ctx' result given run ih =>
    have unwatched : (none : Option Fault.Kind) ≠ some .word := nofun
    have ends := traceAll_ends (s := ⟨frame, ctx⟩) unwatched ev.avoids_none ih outline
    rcases traceAll_of_run run with ⟨answer, htrace, -⟩ | ⟨fault, htrace, -⟩
    · exact (ends.1 answer _ htrace).2
    · exact (ends.2 fault _ htrace).2

/-- A run that succeeds has the moments of the outline. -/
theorem trace_eq_outline (given : Given code frame) (outline : code.outline? = some (moments, table))
    (run : frame.run ev ctx = (.ok (left, .ok ()), ctx')) : frame.trace ev ctx = .ok moments := by
  have unwatched : (none : Option Fault.Kind) ≠ some .word := nofun
  have ends :=
    traceAll_ends (s := ⟨frame, ctx⟩) unwatched ev.avoids_none (given.held outline) outline
  rcases traceAll_of_run run with ⟨answer, htrace, -⟩ | ⟨fault, -, h⟩
  · rw [trace, htrace, (ends.1 answer _ htrace).1]
  · cases h

/-- A run ends in no fault of the stack where the calls that it makes do not. -/
theorem runToEnd_avoids (hev : ev.Avoids (some .stack)) (given : Given code frame)
    (consistent : code.StackConsistent) : Step.Avoids (some .stack) (frame.runToEnd ev) := by
  obtain ⟨⟨moments, table⟩, outline⟩ := Option.isSome_iff_exists.mp consistent
  intro ctx fault h
  have ends := traceAll_ends (s := ⟨frame, ctx⟩) (by decide) hev (given.held outline) outline
  rw [runToEnd, Step.bind_apply] at h
  rcases hrun : frame.run ev ctx with ⟨fault' | ⟨left, result⟩, ctx'⟩
  · cases hrun
  · rw [hrun] at h
    rcases traceAll_of_run hrun with ⟨answer, -, rfl⟩ | ⟨fault', htrace, rfl⟩
    · cases h
    · cases h
      exact (ends.2 fault _ htrace).1

end Frame

end StubInference
