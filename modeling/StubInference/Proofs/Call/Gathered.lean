import StubInference.Bytecode.Builder
import StubInference.Proofs.Call.Expansion
import StubInference.Proofs.Value.Tracking

/-!
# Gathered operands

A call that expands several sequences first gathers them in a list, which it turns into a tuple, and
a call that expands a dictionary first merges it into a new one. What the instructions can take apart
and what a call can take apart are decided in two places. They agree on tuples, lists, literals and
dictionaries. What a function has collected in its own `*args` and `**kwargs` is known to a call
alone: the instructions that gather it lose the contents.

## Main definitions

* `Variable.Unpacks`, `Variable.UnpacksNamed` — operands whose contents a call knows
* `Variable.IsRest`, `Variable.IsOthers` — parameters that collect the rest
* `FrameStep.gatherSequences`, `FrameStep.gatherKeywords` — the instructions that gather operands
* `gathered?` — the elements that several sequences have together, where they are known

## Main results

* `FrameStep.gatherSequences_apply`, `FrameStep.gatherKeywords_apply` — what is gathered
* `FrameStep.gathered_keeps_iff` — which operands keep their contents on the way
-/

namespace StubInference

namespace Variable

variable {v : Variable} {elements : List Variable} {entries : NameMap Variable}

/-- A call that expands the variable knows its elements. -/
def Unpacks (v : Variable) (elements : List Variable) : Prop :=
  unpackPositional v = .ok (some elements)

/-- A call that expands the variable knows its keyword arguments. -/
def UnpacksNamed (v : Variable) (entries : NameMap Variable) : Prop :=
  unpackKeywords v = .ok (some entries)

/-- The only value of the variable is what a parameter collects positional arguments in. -/
def IsRest (v : Variable) : Prop := ∃ elements, v.values = [.argTuple elements]

/-- The only value of the variable is what a parameter collects keyword arguments in. -/
def IsOthers (v : Variable) : Prop := ∃ entries, v.values = [.argDict entries]

/-! ## What instructions know -/

/-- Instructions know the elements that a call knows, but for those that a parameter collects. -/
theorem Unpacks.sequenceElements? (h : v.Unpacks elements) (plain : ¬ v.IsRest) :
    StubInference.sequenceElements? v = some elements := by
  obtain ⟨a, only, read⟩ := Except.bind_eq_ok.mp h
  have here : v.values = [a] := atomic_eq_ok_iff.mp only
  rw [StubInference.sequenceElements?, atomic?_eq_some_iff.mpr here]
  -- both readings go by the kind of the value
  cases a with
  | argTuple elements => exact absurd ⟨elements, here⟩ plain
  | tuple _ => exact Except.ok.inj read
  | list _ => exact Except.ok.inj read
  | literal l =>
    cases l with
    | tuple items => exact Except.ok.inj read
    | _ => cases read
  | _ => cases read

theorem IsRest.sequenceElements? (h : v.IsRest) : StubInference.sequenceElements? v = none := by
  obtain ⟨elements, here⟩ := h
  rw [StubInference.sequenceElements?, atomic?_eq_some_iff.mpr here]
  rfl

/-- Instructions know the entries of a dictionary, which name what a call reads. -/
theorem UnpacksNamed.dictEntries? (h : v.UnpacksNamed entries) (plain : ¬ v.IsOthers) :
    ∃ known, StubInference.dictEntries? v = some known ∧
      namedEntries (some known) = .ok (some entries) := by
  obtain ⟨a, only, read⟩ := Except.bind_eq_ok.mp h
  have here : v.values = [a] := atomic_eq_ok_iff.mp only
  rw [StubInference.dictEntries?, atomic?_eq_some_iff.mpr here]
  cases a with
  | argDict entries => exact absurd ⟨entries, here⟩ plain
  | dict known =>
    cases known with
    | none => cases read
    | some known => exact ⟨known, rfl, read⟩
  | _ => cases read

theorem IsOthers.dictEntries? (h : v.IsOthers) : StubInference.dictEntries? v = none := by
  obtain ⟨entries, here⟩ := h
  rw [StubInference.dictEntries?, atomic?_eq_some_iff.mpr here]

end Variable

/-- The elements that several sequences have together, where those of all are known. -/
def gathered? (sequences : List Variable) : Option (List Variable) :=
  (sequences.mapM sequenceElements?).map List.flatten

/-- What is known of some sequences and of more is known of all together. -/
theorem gathered?_append (sequences later : List Variable) : gathered? (sequences ++ later) =
    (gathered? sequences).bind fun elements => (gathered? later).map (elements ++ ·) := by
  rw [gathered?, gathered?, gathered?, List.mapM_append]
  cases sequences.mapM sequenceElements? with
  | none => rfl
  | some known => cases later.mapM sequenceElements? <;> simp

theorem gathered?_singleton (v : Variable) : gathered? [v] = sequenceElements? v := by
  rw [gathered?, List.mapM_cons]
  cases sequenceElements? v <;> simp

/-- Sequences that a call knows are known together unless a parameter collects one of them. -/
theorem gathered?_of_unpacks {sequences : List Variable} {known : List (List Variable)}
    (unpacks : List.Forall₂ Variable.Unpacks sequences known) :
    ((∀ v ∈ sequences, ¬ v.IsRest) → gathered? sequences = some known.flatten) ∧
      ((∃ v ∈ sequences, v.IsRest) → gathered? sequences = none) := by
  induction unpacks with
  | nil => simp [gathered?]
  | @cons v elements rest knownRest here _ ih =>
    have split : gathered? (v :: rest) =
        (sequenceElements? v).bind fun elements => (gathered? rest).map (elements ++ ·) := by
      rw [← List.singleton_append, gathered?_append, gathered?_singleton]
    obtain ⟨keeps, loses⟩ := ih
    constructor
    · intro plain
      obtain ⟨first, others⟩ := List.forall_mem_cons.mp plain
      rw [split, here.sequenceElements? first, keeps others]
      rfl
    · intro collected
      rw [split]
      rcases List.exists_mem_cons_iff .. |>.mp collected with first | others
      · rw [first.sequenceElements?]
        rfl
      · -- the first sequence may be known, but not what comes behind it
        rw [loses others]
        cases sequenceElements? v <;> rfl

namespace FrameStep

/-! ## The instructions -/

/-- Extend the list on the stack by one sequence after the other. -/
def extendEach (ev : Evaluator) : List Variable → FrameStep Unit
  | [] => pure ()
  | sequence :: rest => do
    push sequence
    perform ev (.listExtend 1)
    extendEach ev rest

/-- Gather sequences in a new list and turn it into a tuple. -/
def gatherSequences (ev : Evaluator) (sequences : List Variable) : FrameStep Unit := do
  perform ev (.buildList 0)
  extendEach ev sequences
  perform ev .listToTuple

/-- Merge a dictionary into a new one. -/
def gatherKeywords (ev : Evaluator) (keywords : Variable) : FrameStep Unit := do
  perform ev (.buildMap 0)
  push keywords
  perform ev (.dictMerge 1)

variable {ev : Evaluator} {s : Execution} {below : List Variable}

/-- A list of the contents so far, extended by one more sequence. -/
theorem extended_gathered? (done : List Variable) (origin : Origin) (v : Variable) :
    extended (.ofValueAt (.list (gathered? done)) origin) v = .list (gathered? (done ++ [v])) := by
  rw [gathered?_append, gathered?_singleton, extended]
  have known : listElements? (.ofValueAt (.list (gathered? done)) origin) = gathered? done := rfl
  rw [known]
  cases gathered? done with
  | none => rfl
  | some elements => cases sequenceElements? v <;> rfl

/-- What the list holds once it is extended by all sequences. -/
theorem extendEach_apply (done sequences : List Variable) (origin : Origin) :
    ∃ origin', extendEach ev sequences
        (onto s (.ofValueAt (.list (gathered? done)) origin :: below)) =
      (.ok (), onto s (.ofValueAt (.list (gathered? (done ++ sequences))) origin' :: below)) := by
  induction sequences generalizing done origin with
  | nil => exact ⟨origin, by rw [List.append_nil]; rfl⟩
  | cons v rest ih =>
    obtain ⟨origin', later⟩ := ih (done ++ [v]) .synthetic
    refine ⟨origin', ?_⟩
    have pushed (t : Execution) (stack : List Variable) :
        push v (onto t stack) = (.ok (), onto t (v :: stack)) := rfl
    have step (list : Variable) : perform ev (.listExtend 1) (onto s (v :: list :: below)) =
        (.ok (), onto s ((extended list v).var :: below)) := rfl
    rw [extendEach, Step.bind_of_ok (pushed ..), Step.bind_of_ok (step _), extended_gathered?]
    rw [List.append_assoc] at later
    exact later

/-- Gathering always succeeds and leaves one tuple. -/
theorem gatherSequences_apply (ev : Evaluator) (sequences : List Variable) (s : Execution) :
    gatherSequences ev sequences s = (.ok (), onto s
      (.ofValueAt (.tuple (gathered? sequences)) (.line s.frame.line) :: s.frame.state.stack)) := by
  have built : perform ev (.buildList 0) s = (.ok (), onto s
      (.ofValueAt (.list (gathered? [])) (.line s.frame.line) :: s.frame.state.stack)) := rfl
  have turned (known : Option (List Variable)) (origin : Origin) :
      perform ev .listToTuple (onto s (.ofValueAt (.list known) origin :: s.frame.state.stack)) =
        (.ok (), onto s (.ofValueAt (.tuple known) (.line s.frame.line) :: s.frame.state.stack)) :=
    rfl
  obtain ⟨origin, extended⟩ := @extendEach_apply ev s s.frame.state.stack [] sequences
    (.line s.frame.line)
  rw [gatherSequences, Step.bind_of_ok built, Step.bind_of_ok extended, turned, List.nil_append]

/-- So does merging, which leaves one dictionary. -/
theorem gatherKeywords_apply (ev : Evaluator) (keywords : Variable) (s : Execution) :
    gatherKeywords ev keywords s = (.ok (), onto s
      ((Value.dict (dictEntries? keywords)).var :: s.frame.state.stack)) := by
  have merged (origin : Origin) : combined (.ofValueAt (.dict (some [])) origin) keywords =
      .dict (dictEntries? keywords) := by
    have known : dictEntries? (.ofValueAt (.dict (some [])) origin) = some [] := rfl
    rw [combined, known]
    cases dictEntries? keywords <;> rfl
  rw [← merged (.line s.frame.line)]
  rfl

/-! ## What is kept -/

/-- What was gathered is known unless a parameter collects one of the sequences. -/
theorem gathered?_eq_some_iff {sequences : List Variable} {known : List (List Variable)}
    (unpacks : List.Forall₂ Variable.Unpacks sequences known) :
    gathered? sequences = some known.flatten ↔ ∀ v ∈ sequences, ¬ v.IsRest := by
  obtain ⟨keeps, loses⟩ := gathered?_of_unpacks unpacks
  refine ⟨fun kept v member collected => ?_, keeps⟩
  rw [loses ⟨v, member, collected⟩] at kept
  cases kept

/-- What was merged is known unless a parameter collects it. -/
theorem unpackKeywords_merged {keywords : Variable} {entries : NameMap Variable}
    (unpacks : keywords.UnpacksNamed entries) :
    ∃ known, unpackKeywords (Value.dict (dictEntries? keywords)).var = .ok known ∧
      (known = some entries ↔ ¬ keywords.IsOthers) ∧ (keywords.IsOthers → known = none) := by
  by_cases collected : keywords.IsOthers
  · refine ⟨none, ?_, by simp [collected], fun _ => rfl⟩
    rw [collected.dictEntries?]
    rfl
  · obtain ⟨known, here, named⟩ := unpacks.dictEntries? collected
    refine ⟨some entries, ?_, by simp [collected], fun h => absurd h collected⟩
    rw [here]
    exact named

/-- A call without a dictionary passes just the elements of its sequence when they are known. -/
theorem expanded_star_iff (frame : Surroundings) {star : Variable} {known : Option (List Variable)}
    {elements : List Variable} (unpacks : unpackPositional star = .ok known) :
    (⟨frame, none⟩ : Operands).expanded star none =
      .ok ⟨elements, [], none, none, some frame⟩ ↔ known = some elements := by
  simp only [Operands.expanded, Args.expandStar, Args.expandStarStar, unpacks]
  cases known <;> simp [bind, Except.bind, pure, Except.pure, Args.empty]

/-- A call passes just the entries of its dictionary by name when they are known. -/
theorem expanded_starStar_iff (frame : Surroundings) {star starStar : Variable}
    {known : Option (NameMap Variable)} {elements : List Variable} {entries : NameMap Variable}
    (first : star.Unpacks elements) (unpacks : unpackKeywords starStar = .ok known) :
    (⟨frame, none⟩ : Operands).expanded star (some starStar) =
      .ok ⟨elements, entries, none, none, some frame⟩ ↔ known = some entries := by
  unfold Variable.Unpacks at first
  simp only [Operands.expanded, Args.expandStar, Args.expandStarStar, first, unpacks]
  cases known <;> simp [bind, Except.bind, pure, Except.pure, Args.empty]

/-- Sequences that a call can expand one by one are expanded together, once they are gathered, just
when none of them is what a parameter collects, and a dictionary is expanded once it is merged just
when it is not what a parameter collects. What is not kept is unknown from then on. -/
theorem gathered_keeps_iff (ev : Evaluator) (s : Execution) (frame : Surroundings)
    {sequences : List Variable} {known : List (List Variable)} {keywords : Variable}
    {entries : NameMap Variable} (unpacks : List.Forall₂ Variable.Unpacks sequences known)
    (unpacksNamed : keywords.UnpacksNamed entries) :
    (∃ star, gatherSequences ev sequences s = (.ok (), onto s (star :: s.frame.state.stack)) ∧
      (star.Unpacks known.flatten ↔ ∀ v ∈ sequences, ¬ v.IsRest) ∧
      ((∃ v ∈ sequences, v.IsRest) → unpackPositional star = .ok none) ∧
      ((⟨frame, none⟩ : Operands).expanded star none =
          .ok ⟨known.flatten, [], none, none, some frame⟩ ↔ ∀ v ∈ sequences, ¬ v.IsRest)) ∧
    ∃ starStar, gatherKeywords ev keywords s =
        (.ok (), onto s (starStar :: s.frame.state.stack)) ∧
      (starStar.UnpacksNamed entries ↔ ¬ keywords.IsOthers) ∧
      (keywords.IsOthers → unpackKeywords starStar = .ok none) ∧
      ∀ star elements, star.Unpacks elements →
        ((⟨frame, none⟩ : Operands).expanded star (some starStar) =
          .ok ⟨elements, entries, none, none, some frame⟩ ↔ ¬ keywords.IsOthers) := by
  constructor
  · have read : unpackPositional (.ofValueAt (.tuple (gathered? sequences)) (.line s.frame.line)) =
        .ok (gathered? sequences) := rfl
    have kept := gathered?_eq_some_iff unpacks
    refine ⟨_, gatherSequences_apply ev sequences s, ?_, fun collected => ?_,
      (expanded_star_iff frame read).trans kept⟩
    · rw [Variable.Unpacks, read, Except.ok.injEq, kept]
    · rw [read, (gathered?_of_unpacks unpacks).2 collected]
  · obtain ⟨known, read, kept, lost⟩ := unpackKeywords_merged unpacksNamed
    refine ⟨_, gatherKeywords_apply ev keywords s, ?_, fun collected => ?_,
      fun star elements first => (expanded_starStar_iff frame first read).trans kept⟩
    · rw [Variable.UnpacksNamed, read, Except.ok.injEq, kept]
    · rw [read, lost collected]

/-- A frame of a module that does nothing. -/
def idle : Execution :=
  let code := CodeBuilder.module.returnNone.build
  ⟨Frame.start "<module>" .module code ⟨0, []⟩ none ⟨0⟩ [] ⟨1⟩ [], .new .standard⟩

/-- A list and a literal tuple are gathered with their elements, and a dictionary is merged with its
entry. -/
theorem gatherSequences_list_and_tuple :
    let one := (Value.literal (.int 1)).var
    let two := (Value.literal (.int 2)).var
    let list := (Value.list (some [one])).var
    let tuple := (Value.literal (.tuple [.int 2])).var
    let keywords := (Value.dict (some [((Value.literal (.str "key")).var, two)])).var
    (∃ star, gatherSequences interpreter [list, tuple] idle = (.ok (), onto idle [star]) ∧
      star.Unpacks [one, two]) ∧
    ∃ starStar, gatherKeywords interpreter keywords idle = (.ok (), onto idle [starStar]) ∧
      starStar.UnpacksNamed [("key", two)] := by
  intro one two list tuple keywords
  have unpacks : List.Forall₂ Variable.Unpacks [list, tuple] [[one], [two]] :=
    .cons rfl (.cons rfl .nil)
  have unpacksNamed : keywords.UnpacksNamed [("key", two)] := rfl
  obtain ⟨⟨star, gathered, kept, -⟩, starStar, merged, keptNamed, -⟩ :=
    gathered_keeps_iff interpreter idle ⟨"<module>", ⟨0⟩, []⟩ unpacks unpacksNamed
  refine ⟨⟨star, gathered, kept.mpr ?_⟩, starStar, merged, keptNamed.mpr ?_⟩
  · intro v member
    rintro ⟨elements, collected⟩
    rcases List.mem_pair.mp member with rfl | rfl <;> cases collected
  · rintro ⟨entries, collected⟩
    cases collected

/-- `def forward(*args, **kwargs)` -/
def forwardingSignature : Signature := ⟨"forward", [], 0, [], some "args", some "kwargs", []⟩

/-- In `forward(1, key=1)` both parameters have known contents, which a call that expands them as they
are knows. Gathered in a tuple and in a dictionary nothing is left of them. -/
theorem gatherSequences_collected :
    let one := (Value.literal (.int 1)).var
    let bound := (forwardingSignature.mapArgs ⟨[one], [("key", one)], none, none, none⟩).args
    ∃ args kwargs, bound.get? "args" = some args ∧ bound.get? "kwargs" = some kwargs ∧
      unpackPositional args = .ok (some [one]) ∧ unpackKeywords kwargs = .ok (some [("key", one)]) ∧
      (∃ star, gatherSequences interpreter [args] idle = (.ok (), onto idle [star]) ∧
        unpackPositional star = .ok none) ∧
      ∃ starStar, gatherKeywords interpreter kwargs idle = (.ok (), onto idle [starStar]) ∧
        unpackKeywords starStar = .ok none := by
  intro one bound
  refine ⟨_, _, rfl, rfl, rfl, rfl, ⟨_, rfl, rfl⟩, ⟨_, rfl, rfl⟩⟩

end FrameStep

end StubInference
