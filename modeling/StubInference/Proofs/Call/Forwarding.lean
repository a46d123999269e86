import StubInference.Proofs.Call.Binding
import StubInference.Proofs.Call.Expansion

/-!
# Passing arguments on

A function that collects positional and keyword arguments can hand them to another one, in a call
that expands both collections. The binder packs what is left of a call into the two collecting
parameters, and the call unpacks them again. Nothing is lost on the way: behind the parameters with
positions come the very positional arguments that were left, keyword arguments keep their order, and a
collection whose contents are unknown stays unknown.

## Main definitions

* `Signature.passedOn` — the arguments of a call that expands what was collected
* `Signature.Forwards` — a call passes on what another one left

## Main results

* `Operands.expanded_collected` — what a call makes of two collecting parameters
* `Signature.mapArgs_forwards` — binding arguments and expanding what was collected loses nothing
-/

namespace StubInference

/-- A call that expands both collections passes the contents that are known, and the others as
unknown. -/
theorem Operands.expanded_collected (frame : Surroundings) (rest : Option (List Variable))
    (others : Option (NameMap Variable)) :
    (⟨frame, none⟩ : Operands).expanded (Value.argTuple rest).var (some (Value.argDict others).var) =
      .ok {
        positional := rest.getD []
        keywords := others.getD []
        star := if rest.isNone then some (Value.argTuple rest).var else none
        starStar := if others.isNone then some (Value.argDict others).var else none
        frame := some frame } := by
  -- each collection is taken apart on its own, and both contents are known or not
  cases rest <;> cases others <;> rfl

namespace Signature

variable {sig : Signature} {args : Args}

/-! ## What parameters hold -/

/-- A positional argument goes to the parameter in its position. -/
theorem given?_getElem (distinct : sig.params.Nodup) {i : Nat} (hi : i < sig.params.length)
    (enough : sig.params.length ≤ args.positional.length) :
    sig.given? args sig.params[i] = some args.positional[i] := by
  have here : (sig.placed args).get? sig.params[i] = some args.positional[i] := by
    rw [placed, NameMap.get?_zip_getElem distinct, List.getElem?_eq_getElem]
  rw [given?, passed?, here]
  rfl

/-- Enough positional arguments fill all parameters that have positions, in order. -/
theorem map_get?_params (distinct : sig.parameters.Nodup) (keywords : args.keywords.names.Nodup)
    (enough : sig.params.length ≤ args.positional.length) :
    sig.params.map (sig.mapArgs args).args.get? =
      (args.positional.take sig.params.length).map some := by
  have params : sig.params.Nodup :=
    (List.nodup_append.mp (List.nodup_append.mp distinct).1).1
  -- the parameters are looked up by name but filled by position
  apply List.ext_getElem
  · simpa using enough
  · intro i hi _
    rw [List.length_map] at hi
    have named : sig.params[i] ∈ sig.namedParams := List.mem_append_left _ (List.getElem_mem hi)
    rw [List.getElem_map, get?_mapArgs_named distinct keywords named,
      given?_getElem params hi enough]
    simp

/-- Keyword arguments that name no parameter are all collected. -/
theorem others_eq_keywords (distinct : sig.parameters.Nodup)
    (unnamed : ∀ name ∈ args.keywords.names, name ∉ sig.keywordParams) :
    sig.others args = args.keywords := by
  have named : sig.namedParams.Nodup := (List.nodup_append.mp distinct).1
  refine List.filter_eq_self.mpr fun entry member => ?_
  have free := unnamed entry.1 (List.mem_map_of_mem member)
  rw [← takesKeyword_iff named] at free
  simpa using free

/-- A call that fills the parameters with positions and names no parameter fits a signature that
collects the rest. -/
theorem errors_mapArgs_eq_nil (distinct : sig.parameters.Nodup)
    (keywords : args.keywords.names.Nodup) (collects : sig.varArgs.isSome)
    (collectsNamed : sig.varKeywords.isSome) (plain : sig.kwOnly = [])
    (enough : sig.params.length ≤ args.positional.length)
    (unnamed : ∀ name ∈ args.keywords.names, name ∉ sig.keywordParams) :
    (sig.mapArgs args).errors = [] := by
  have named : sig.namedParams.Nodup := (List.nodup_append.mp distinct).1
  apply (errors_mapArgs_eq_nil_iff distinct keywords).mpr
  refine ⟨?_, fun name member => ?_, fun name member => ?_⟩
  · have : sig.varArgs.isNone = false := by simp [collects]
    simp [excess, this]
  · have free := unnamed name member
    rw [← takesKeyword_iff named] at free
    simp [misfit, free, collectsNamed]
  · rw [namedParams, plain, List.append_nil] at member
    obtain ⟨i, hi, rfl⟩ := List.getElem_of_mem member
    rw [given?_getElem (List.nodup_append.mp named).1 hi enough]
    rfl

/-! ## Passing on -/

/-- The arguments that a call to a function passes on, when the function hands over what its two
collecting parameters hold. -/
structure Forwards (sig : Signature) (args forwarded : Args) : Prop where
  /-- The parameters with positions and what is passed on by position are the positional arguments. -/
  positional : args.star = none → sig.params.length ≤ args.positional.length →
    sig.params.map (sig.mapArgs args).args.get? ++ forwarded.positional.map some =
      args.positional.map some
  /-- The keyword arguments are passed on in order. -/
  keywords : args.starStar = none →
    (∀ name ∈ args.keywords.names, name ∉ sig.keywordParams) → forwarded.keywords = args.keywords
  /-- Positional arguments are unknown behind the call exactly where they were before. -/
  star : forwarded.star.isSome = args.star.isSome
  /-- So are keyword arguments. -/
  starStar : forwarded.starStar.isSome = args.starStar.isSome
  /-- Nothing is reported where everything can be passed on. -/
  errors : sig.kwOnly = [] → sig.params.length ≤ args.positional.length →
    (∀ name ∈ args.keywords.names, name ∉ sig.keywordParams) → (sig.mapArgs args).errors = []

/-- The arguments of a call that expands what a call with the given arguments collects. -/
def passedOn (sig : Signature) (args : Args) (frame : Surroundings) : Args :=
  { positional := (sig.rest? args).getD []
    keywords := (sig.others? args).getD []
    star := if (sig.rest? args).isNone then some (Value.argTuple (sig.rest? args)).var else none
    starStar :=
      if (sig.others? args).isNone then some (Value.argDict (sig.others? args)).var else none
    frame := some frame }

theorem forwards_passedOn (distinct : sig.parameters.Nodup) (keywords : args.keywords.names.Nodup)
    (collects : sig.varArgs.isSome) (collectsNamed : sig.varKeywords.isSome)
    (frame : Surroundings) : sig.Forwards args (sig.passedOn args frame) where
  positional := by
    intro known enough
    have rest : (sig.passedOn args frame).positional = args.positional.drop sig.params.length := by
      simp [passedOn, rest?, known]
    rw [map_get?_params distinct keywords enough, rest, ← List.map_append,
      List.take_append_drop]
  keywords := by
    intro known unnamed
    rw [← others_eq_keywords distinct unnamed]
    simp [passedOn, others?, known]
  star := by
    unfold passedOn rest?
    cases args.star <;> rfl
  starStar := by
    unfold passedOn others?
    cases args.starStar <;> rfl
  errors := errors_mapArgs_eq_nil distinct keywords collects collectsNamed

/-- A function that collects positional and keyword arguments binds them so that a call that expands
both collections passes on everything that the other parameters did not take. -/
theorem mapArgs_forwards {rest others : String} (distinct : sig.parameters.Nodup)
    (keywords : args.keywords.names.Nodup) (collects : sig.varArgs = some rest)
    (collectsNamed : sig.varKeywords = some others) (frame : Surroundings) :
    ∃ star starStar forwarded, (sig.mapArgs args).args.get? rest = some star ∧
      (sig.mapArgs args).args.get? others = some starStar ∧
      (⟨frame, none⟩ : Operands).expanded star (some starStar) = .ok forwarded ∧
      sig.Forwards args forwarded := by
  refine ⟨_, _, sig.passedOn args frame, ?_, ?_, Operands.expanded_collected frame _ _, ?_⟩
  · apply get?_mapArgs_collected distinct keywords
    simp [collected, collects]
  · apply get?_mapArgs_collected distinct keywords
    simp [collected, collectsNamed]
  · exact forwards_passedOn distinct keywords (by simp [collects]) (by simp [collectsNamed]) frame

/-- A function with one parameter passes on the second of two positional arguments and a keyword, and
what it cannot know when it is called with unknown arguments. -/
theorem mapArgs_forwards_of_two :
    let sig : Signature := ⟨"forward", ["first"], 0, [], some "args", some "kwargs", []⟩
    let one := (Value.literal (.int 1)).var
    let two := (Value.literal (.int 2)).var
    let known : Args := ⟨[one, two], [("key", two)], none, none, none⟩
    let unknown : Args := ⟨[], [], some Value.any.var, some Value.any.var, none⟩
    (∃ forwarded, sig.Forwards known forwarded ∧ forwarded.positional.map some = [some two] ∧
      forwarded.keywords = [("key", two)]) ∧
    ∃ forwarded, sig.Forwards unknown forwarded ∧ forwarded.star.isSome ∧
      forwarded.starStar.isSome := by
  intro sig one two known unknown
  constructor
  · obtain ⟨star, starStar, forwarded, -, -, -, h⟩ :=
      @mapArgs_forwards sig known "args" "kwargs" (by decide) (by decide) rfl rfl ⟨"m", ⟨0⟩, []⟩
    refine ⟨forwarded, h, ?_, h.keywords rfl (by decide)⟩
    have all := h.positional rfl (by decide)
    exact (List.cons.inj all).2
  · obtain ⟨star, starStar, forwarded, -, -, -, h⟩ :=
      @mapArgs_forwards sig unknown "args" "kwargs" (by decide) (by decide) rfl rfl ⟨"m", ⟨0⟩, []⟩
    exact ⟨forwarded, h, h.star, h.starStar⟩

end Signature

end StubInference
