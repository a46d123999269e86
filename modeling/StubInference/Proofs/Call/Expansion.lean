import StubInference.Proofs.Run.Moments
import StubInference.Proofs.Value.Tables

/-!
# Operands of plain and of expanded calls

A call can be written in two ways. The operands of a plain call lie on the stack, and an instruction
before it has named the last ones. An expanded call finds the first operands in a sequence and the
others in a dictionary, under their names. The plain call splits its operands by count and pairs the
last ones with the names; the expanded one takes a sequence apart and reads a dictionary key by key.
The arguments are the same for all operands and all names, repeated ones included.

## Main definitions

* `Value.SequenceOf` — the sequences of known elements that a call can expand
* `Variable.Expands`, `Variable.ExpandsNamed` — variables that hold the operands of an expanded call
* `Execution.afterOperands` — the execution once a call has taken its operands

## Main results

* `Operands.arguments_append`, `Operands.expanded_eq` — what each kind of call makes of its operands
* `FrameStep.plainOperands_marked`, `FrameStep.expandedOperands_marked` — the same on the stack
* `FrameStep.plainOperands_uses_names` — no name waits behind a plain call
* `FrameStep.perform_call_eq_expanded` — both calls are the same
-/

namespace StubInference

/-- The sequences with the given elements that a call can expand. -/
inductive Value.SequenceOf : List Variable → Value → Prop
  | tuple (elements : List Variable) : SequenceOf elements (.tuple (some elements))
  | list (elements : List Variable) : SequenceOf elements (.list (some elements))
  | argTuple (elements : List Variable) : SequenceOf elements (.argTuple (some elements))

namespace Variable

/-- The only value of the variable is a sequence with the given elements. -/
def Expands (star : Variable) (elements : List Variable) : Prop :=
  ∃ value, star.atomic = .ok value ∧ value.SequenceOf elements

/-- The only value of the variable is the text of a name. -/
def Spells (key : Variable) (name : String) : Prop := key.atomic = .ok (.literal (.str name))

/-- The only value of the variable is a dictionary that has the given names as keys, in this order and
as often, for the given elements. -/
def ExpandsNamed (starStar : Variable) (names : List String) (elements : List Variable) : Prop :=
  ∃ keys, List.Forall₂ Spells keys names ∧ starStar.atomic = .ok (.dict (some (keys.zip elements)))

variable {star starStar : Variable} {names : List String} {elements : List Variable}

theorem Spells.literal {key : Variable} {name : String} (h : key.Spells name) :
    key.literal .str = .ok name := by
  rw [Variable.literal, h]
  rfl

theorem Expands.unpack (h : star.Expands elements) :
    unpackPositional star = .ok (some elements) := by
  obtain ⟨value, only, sequence⟩ := h
  rw [unpackPositional, only]
  cases sequence <;> rfl

/-- The keys of a dictionary are read back one by one. -/
theorem Spells.mapM_zip {keys : List Variable} (spelled : List.Forall₂ Spells keys names)
    (elements : List Variable) :
    ((keys.zip elements).mapM fun (key, value) => do pure (← key.literal .str, value)) =
      (.ok (names.zip elements) : Except Fault (List (String × Variable))) := by
  induction spelled generalizing elements with
  | nil => rfl
  | cons here _ ih =>
    cases elements with
    | nil => rfl
    | cons value rest =>
      rw [List.zip_cons_cons, List.mapM_cons, ih rest]
      dsimp only
      rw [here.literal]
      rfl

theorem ExpandsNamed.unpack (h : starStar.ExpandsNamed names elements) :
    unpackKeywords starStar = .ok (some (NameMap.ofEntries (names.zip elements))) := by
  obtain ⟨keys, spelled, only⟩ := h
  rw [unpackKeywords, only]
  change namedEntries (some (keys.zip elements)) = _
  rw [namedEntries, Spells.mapM_zip spelled]
  rfl

end Variable

/-! ## Arguments -/

namespace Operands

variable {names : List String} {leading trailing : List Variable}

/-- A plain call passes the first operands by position and the last ones under the names. -/
theorem arguments_append (operands : Operands) (waiting : operands.names.getD [] = names)
    (paired : trailing.length = names.length) :
    operands.arguments (leading ++ trailing) =
      .ok ⟨leading, NameMap.ofEntries (names.zip trailing), none, none, some operands.frame⟩ := by
  have fits : names.length ≤ (leading ++ trailing).length := by simp [← paired]
  have split : (leading ++ trailing).length - names.length = leading.length := by simp [← paired]
  rw [arguments, waiting]
  dsimp only
  rw [if_pos fits, split, List.take_left, List.drop_left]
  rfl

/-- An expanded call passes the elements of the sequence by position and those of the dictionary under
its keys. -/
theorem expanded_eq (frame : Surroundings) {star starStar : Variable}
    (first : star.Expands leading) (named : starStar.ExpandsNamed names trailing) :
    (⟨frame, none⟩ : Operands).expanded star (some starStar) =
      .ok ⟨leading, NameMap.ofEntries (names.zip trailing), none, none, some frame⟩ := by
  simp only [expanded, Args.expandStar, Args.expandStarStar, first.unpack, named.unpack]
  rfl

end Operands

/-! ## Instructions -/

/-- The execution once a call has taken its operands and the names that waited for it. -/
def Execution.afterOperands (s : Execution) (rest : List Variable) : Execution :=
  ⟨{ s.frame with
    state := { s.frame.state with stack := rest }
    operands := s.frame.operands.clear }, s.context⟩

namespace FrameStep

variable {values rest : List Variable} {callee marker star starStar : Variable} {args : Args}
  {s t : Execution}

/-- The execution with another stack. -/
def onto (s : Execution) (stack : List Variable) : Execution :=
  s.withState { s.frame.state with stack }

theorem pop_onto (op : Opcode) (top : Variable) (below : List Variable) :
    pop op (onto s (top :: below)) = (.ok top, onto s below) := pop_eq_ok.mpr ⟨below, rfl, rfl⟩

/-- A plain call takes its operands, the callee and the empty marker from the stack, and the names that
wait. -/
theorem plainOperands_marked (op : Opcode) (marked : marker.holds .null = true)
    (onStack : s.frame.state.stack = values.reverse ++ callee :: marker :: rest)
    (made : s.frame.operands.arguments values = .ok args) :
    plainOperands values.length op s = (.ok (callee, args), s.afterOperands rest) := by
  have first : popMany values.length op s = (.ok values, onto s (callee :: marker :: rest)) := by
    refine popMany_eq_ok.mpr ⟨by simp [onStack], ?_, ?_⟩
    · rw [onStack, List.take_left' (by simp), List.reverse_reverse]
    · rw [onStack, List.drop_left' (by simp)]
      rfl
  have waiting : fromFrame (·.operands) (onto s rest) = (.ok s.frame.operands, onto s rest) := rfl
  have cleared : modifyFrame (fun frame => { frame with operands := frame.operands.clear })
      (onto s rest) = (.ok (), s.afterOperands rest) := rfl
  rw [plainOperands, Step.bind_of_ok first, Step.bind_of_ok (pop_onto ..),
    Step.bind_of_ok (pop_onto ..)]
  simp only [marked, if_true]
  rw [Step.bind_of_ok waiting, Step.bind_of_ok cleared, made]
  rfl

/-- An expanded call takes the dictionary, the sequence, the callee and the empty marker. -/
theorem expandedOperands_marked (op : Opcode) {flags : UInt8} (dictionary : flagged flags 1 = true)
    (marked : marker.holds .null = true) (free : s.frame.operands.names = none)
    (onStack : s.frame.state.stack = starStar :: star :: callee :: marker :: rest)
    (made : s.frame.operands.expanded star (some starStar) = .ok args) :
    expandedOperands flags op s = (.ok (callee, args), s.afterOperands rest) := by
  have first : popFlagged flags 1 op s =
      (.ok (some starStar), onto s (star :: callee :: marker :: rest)) := by
    rw [popFlagged, if_pos dictionary]
    exact Step.bind_of_ok (pop_eq_ok.mpr ⟨_, onStack, rfl⟩)
  have left : stack (onto s (marker :: rest)) = (.ok (marker :: rest), onto s (marker :: rest)) :=
    rfl
  have dropped : modifyState (fun state => { state with stack := rest })
      (onto s (marker :: rest)) = (.ok (), onto s rest) := rfl
  have waiting : fromFrame (·.operands) (onto s rest) = (.ok s.frame.operands, onto s rest) := rfl
  have unnamed : onto s rest = s.afterOperands rest := by
    rw [onto, Execution.afterOperands, Operands.clear, ← free]
    rfl
  rw [expandedOperands, Step.bind_of_ok first, Step.bind_of_ok (pop_onto ..),
    Step.bind_of_ok (pop_onto ..), Step.bind_of_ok left]
  simp only [marked, if_true]
  rw [Step.bind_of_ok dropped, Step.bind_of_ok waiting, made, unnamed]
  rfl

/-- No name waits behind a plain call, wherever the callee lay. -/
theorem plainOperands_uses_names {count : Nat} {op : Opcode}
    (made : plainOperands count op s = (.ok (callee, args), t)) : t.frame.operands.names = none := by
  obtain ⟨values, _, _, made⟩ := Step.bind_eq_ok.mp made
  obtain ⟨upper, _, _, made⟩ := Step.bind_eq_ok.mp made
  obtain ⟨lower, u, _, made⟩ := Step.bind_eq_ok.mp made
  dsimp only at made
  rw [Step.bind_of_ok (fromFrame_apply _ _), Step.bind_of_ok (modifyFrame_apply _ _)] at made
  obtain ⟨_, _, passed, made⟩ := Step.bind_eq_ok.mp made
  obtain ⟨_, rfl⟩ := check_eq_ok.mp passed
  cases made
  rfl

end FrameStep

/-! ## Both calls -/

/-- A plain call whose operands are the leading ones and then the named ones, and an expanded call with
the leading ones in a sequence and the others in a dictionary, pass these arguments. -/
structure PassAlike (frame : Surroundings) (names : List String) (leading trailing : List Variable)
    (args : Args) : Prop where
  /-- Positional arguments, keywords in the order of their names, and nothing unknown. -/
  normal : args = ⟨leading, NameMap.ofEntries (names.zip trailing), none, none, some frame⟩
  /-- Under distinct names every operand is passed, once and in its place. -/
  once : names.Nodup → args.positional ++ args.keywords.values = leading ++ trailing
  plain : ∀ waiting : Option (List String), waiting.getD [] = names →
    (⟨frame, waiting⟩ : Operands).arguments (leading ++ trailing) = .ok args
  expanded : ∀ star starStar : Variable, star.Expands leading → starStar.ExpandsNamed names trailing →
    (⟨frame, none⟩ : Operands).expanded star (some starStar) = .ok args
  /-- The instruction of a plain call uses the names up and calls with these arguments. -/
  call : ∀ (ev : Evaluator) (s : Execution) (callee marker : Variable) (rest : List Variable),
    marker.holds .null = true → s.frame.operands.frame = frame →
    s.frame.operands.names.getD [] = names →
    s.frame.state.stack = (leading ++ trailing).reverse ++ callee :: marker :: rest →
    FrameStep.perform ev (.call (leading ++ trailing).length) s =
        FrameStep.callOn ev callee args (s.afterOperands rest) ∧
      (s.afterOperands rest).frame.operands.names = none
  /-- So does that of an expanded call, where no names wait. -/
  callExpanded : ∀ (ev : Evaluator) (flags : UInt8) (s : Execution)
    (star starStar callee marker : Variable) (rest : List Variable),
    star.Expands leading → starStar.ExpandsNamed names trailing → FrameStep.flagged flags 1 = true →
    marker.holds .null = true → s.frame.operands = ⟨frame, none⟩ →
    s.frame.state.stack = starStar :: star :: callee :: marker :: rest →
    FrameStep.perform ev (.callFunctionEx flags) s =
      FrameStep.callOn ev callee args (s.afterOperands rest)

/-- Distinct names keep every operand. -/
theorem values_ofEntries_zip {names : List String} {trailing : List Variable}
    (distinct : names.Nodup) (paired : trailing.length = names.length) :
    (NameMap.ofEntries (names.zip trailing)).values = trailing := by
  have entries : (NameMap.names (names.zip trailing)).Nodup := by
    rw [NameMap.names_zip]
    exact distinct.sublist (List.take_sublist _ _)
  rw [NameMap.ofEntries_of_nodup entries, NameMap.values]
  exact List.map_snd_zip paired.le

/-- Whatever the operands are and whatever names wait for the last ones, they split into leading and
named ones, and a plain call passes the same as an expanded one. -/
theorem perform_call_eq_expanded (frame : Surroundings) (values : List Variable)
    (names : List String) (fits : names.length ≤ values.length) :
    ∃ leading trailing args, values = leading ++ trailing ∧ trailing.length = names.length ∧
      PassAlike frame names leading trailing args := by
  obtain ⟨leading, trailing, rfl, paired⟩ : ∃ leading trailing,
      values = leading ++ trailing ∧ trailing.length = names.length := by
    refine ⟨_, _, (List.take_append_drop (values.length - names.length) values).symm, ?_⟩
    rw [List.length_drop]
    omega
  refine ⟨leading, trailing, ⟨leading, NameMap.ofEntries (names.zip trailing), none, none, some frame⟩,
    rfl, paired, ?_⟩
  exact {
    normal := rfl
    once := fun distinct => congrArg (leading ++ ·) (values_ofEntries_zip distinct paired)
    plain := fun waiting named => Operands.arguments_append ⟨frame, waiting⟩ named paired
    expanded := fun star starStar first named => Operands.expanded_eq frame first named
    call := by
      rintro ev s callee marker rest marked rfl waiting onStack
      refine ⟨?_, rfl⟩
      rw [show FrameStep.perform ev (.call _) = FrameStep.callPlain ev _ _ from rfl,
        FrameStep.callPlain_eq]
      rw [Step.bind_of_ok (FrameStep.plainOperands_marked _ marked onStack
        (Operands.arguments_append _ waiting paired))]
    callExpanded := by
      intro ev flags s star starStar callee marker rest first named dictionary marked free onStack
      rw [show FrameStep.perform ev (.callFunctionEx flags) = FrameStep.callExpanded ev flags _
        from rfl, FrameStep.callExpanded_eq]
      have made : s.frame.operands.expanded star (some starStar) =
          .ok ⟨leading, NameMap.ofEntries (names.zip trailing), none, none, some frame⟩ := by
        rw [free]
        exact Operands.expanded_eq frame first named
      rw [Step.bind_of_ok (FrameStep.expandedOperands_marked _ dictionary marked (by rw [free]) onStack
        made)] }

/-- Two of three operands are named, once by two names and once by the same name twice. -/
theorem perform_call_eq_expanded_of_three :
    let frame : Surroundings := ⟨"m", ⟨0⟩, []⟩
    let one := (Value.literal (.int 1)).var
    let two := (Value.literal (.int 2)).var
    let three := (Value.literal (.int 3)).var
    let star := (Value.list (some [one])).var
    let starStar (names : List String) := (Value.dict (some
      ((names.map fun name => (Value.literal (.str name)).var).zip [two, three]))).var
    (∃ args, (⟨frame, some ["k", "j"]⟩ : Operands).arguments [one, two, three] = .ok args ∧
      (⟨frame, none⟩ : Operands).expanded star (some (starStar ["k", "j"])) = .ok args ∧
      args.keywords = [("k", two), ("j", three)] ∧
      args.positional ++ args.keywords.values = [one, two, three]) ∧
    ∃ args, (⟨frame, some ["k", "k"]⟩ : Operands).arguments [one, two, three] = .ok args ∧
      (⟨frame, none⟩ : Operands).expanded star (some (starStar ["k", "k"])) = .ok args ∧
      args.keywords = [("k", three)] := by
  intro frame one two three star starStar
  have spelled (name : String) : (Value.literal (.str name)).var.Spells name := rfl
  constructor
  · obtain ⟨leading, trailing, args, split, paired, alike⟩ :=
      perform_call_eq_expanded frame [one, two, three] ["k", "j"] (by decide)
    obtain ⟨rfl, rfl⟩ : [one] = leading ∧ [two, three] = trailing :=
      List.append_inj' split paired.symm
    refine ⟨args, alike.plain _ rfl, alike.expanded _ _ ⟨_, rfl, .list _⟩ ?_, ?_,
      alike.once (by decide)⟩
    · exact ⟨_, .cons (spelled _) (.cons (spelled _) .nil), rfl⟩
    · rw [alike.normal]
      rfl
  · obtain ⟨leading, trailing, args, split, paired, alike⟩ :=
      perform_call_eq_expanded frame [one, two, three] ["k", "k"] (by decide)
    obtain ⟨rfl, rfl⟩ : [one] = leading ∧ [two, three] = trailing :=
      List.append_inj' split paired.symm
    refine ⟨args, alike.plain _ rfl, alike.expanded _ _ ⟨_, rfl, .list _⟩ ?_, ?_⟩
    · exact ⟨_, .cons (spelled _) (.cons (spelled _) .nil), rfl⟩
    · rw [alike.normal]
      rfl

end StubInference
