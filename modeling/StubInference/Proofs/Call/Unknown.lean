import StubInference.Call.Evaluator
import StubInference.Proofs.Call.Binding
import StubInference.Proofs.Frame.Steps

/-!
# Unknown arguments

A call may carry positional arguments of unknown number and keyword arguments of unknown names. It
stands for every call that has some arguments in their place: where one of these fits, the call with
the unknown ones fits, and it binds each parameter in the same way or to something unknown.

A body that is analysed on its own is run with unknown arguments behind a receiver. It gets the
bindings of a call with these arguments unless its only named parameters are keyword-only ones: then the
first of them is bound to the receiver, which no call does.

## Main definitions

* `Args.unknown` — positional arguments, and behind them everything unknown
* `Args.withMore`, `Args.Allows` — further arguments in place of the unknown ones
* `Signature.BindsLike` — what unknown arguments may change about a parameter

## Main results

* `Signature.mapArgs_of_withMore` — calls with unknown arguments are bound soundly
* `Signature.fakeArgs_eq_mapArgs_iff` — when a body is analysed as a call would run it
-/

namespace StubInference

namespace Args

/-- Positional arguments, and behind them arguments of unknown number and of unknown names. -/
def unknown (positional : List Variable) : Args :=
  { empty with positional, star := some Value.any.var, starStar := some Value.any.var }

/-- The call with further arguments in place of its unknown ones. -/
def withMore (args : Args) (more : List Variable) (named : NameMap Variable) : Args :=
  { args with
    positional := args.positional ++ more
    keywords := args.keywords ++ named
    star := none
    starStar := none }

/-- Arguments that the unknown ones of a call may stand for. There are none where nothing is unknown,
and no keyword argument comes twice. -/
structure Allows (args : Args) (more : List Variable) (named : NameMap Variable) : Prop where
  positional : args.star = none → more = []
  keywords : args.starStar = none → named = []
  distinct : (args.keywords ++ named).names.Nodup

theorem Allows.nodup {args : Args} {more : List Variable} {named : NameMap Variable}
    (h : args.Allows more named) : args.keywords.names.Nodup := by
  have distinct := h.distinct
  rw [NameMap.names_append] at distinct
  exact (List.nodup_append.mp distinct).1

end Args

namespace Signature

variable {sig : Signature} {args : Args} {name : String} {more : List Variable}
  {named : NameMap Variable}

theorem zip_append_right (names : List String) (values more : List Variable) :
    names.zip (values ++ more) = names.zip values ++ (names.drop values.length).zip more := by
  induction names generalizing values with
  | nil => simp
  | cons name rest ih =>
    cases values with
    | nil => simp
    | cons v values => simp [ih]

/-- Further positional arguments go behind those that are placed. -/
theorem placed_withMore : sig.placed (args.withMore more named) =
    sig.placed args ++ (sig.params.drop args.positional.length).zip more :=
  zip_append_right ..

/-- A keyword argument that fits fills a parameter that is not filled yet. -/
theorem placed_of_misfit_eq_nil {bound : NameMap Variable} (takes : sig.takesKeyword name = true)
    (h : sig.misfit bound name = []) : bound.get? name = none := by
  rw [misfit, if_pos takes] at h
  by_contra some
  rw [if_pos (by simpa [NameMap.has, Option.isSome_iff_ne_none] using some)] at h
  cases h

/-- What no unknown argument may reach is passed by none of those that the unknown ones stand for. -/
theorem passed?_withMore_of_not_reaches (distinct : sig.namedParams.Nodup)
    (h : args.Allows more named) (unreached : ¬ sig.Reaches args name)
    (nothing : sig.passed? args name = none) :
    sig.passed? (args.withMore more named) name = none := by
  obtain ⟨unplaced, unnamed⟩ := Option.or_eq_none_iff.mp nothing
  rw [Reaches, not_or, not_and, not_and] at unreached
  refine Option.or_eq_none_iff.mpr ⟨?_, ?_⟩
  · rw [placed_withMore, NameMap.get?_append, unplaced, Option.none_or,
      NameMap.get?_eq_none_iff, NameMap.names_zip]
    intro mem
    have param : name ∈ sig.params := List.mem_of_mem_drop (List.mem_of_mem_take mem)
    -- so there is no unknown number of arguments, hence none further
    have : args.star = none := by
      rw [← Option.not_isSome_iff_eq_none]
      exact fun star => unreached.1 star param
    rw [h.positional this] at mem
    simp at mem
  · split
    case isTrue takes =>
      rw [if_pos takes] at unnamed
      have param : name ∈ sig.keywordParams := (takesKeyword_iff distinct).mp takes
      have : args.starStar = none := by
        rw [← Option.not_isSome_iff_eq_none]
        exact fun star => unreached.2 star param
      change NameMap.get? (args.keywords ++ named) name = none
      rw [NameMap.get?_append, unnamed, h.keywords this]
      rfl
    case isFalse => rfl

/-- A named parameter is bound as it is when the unknown arguments are known, or it may be anything. -/
theorem given?_of_withMore (distinct : sig.namedParams.Nodup) (h : args.Allows more named)
    (fits : ∀ name ∈ args.keywords.names,
      sig.misfit (sig.placed (args.withMore more named)) name = [])
    {v : Variable} (hv : sig.given? (args.withMore more named) name = some v) :
    sig.given? args name = some v ∨
      sig.Reaches args name ∧ sig.given? args name = some Value.any.var := by
  have unreached : ¬ sig.Reaches (args.withMore more named) name := by
    simp [Reaches, Args.withMore]
  rw [given?, if_neg unreached, Option.or_none] at hv
  rw [given?]
  cases passed : sig.passed? args name with
  | some w =>
    -- what the call passes is passed in the same way among more arguments
    have same : sig.passed? (args.withMore more named) name = some w := by
      rcases Option.or_eq_some_iff.mp passed with placed | ⟨unplaced, keyword⟩
      · rw [passed?, placed_withMore, NameMap.get?_append, placed]
        rfl
      · split at keyword
        case isTrue takes =>
          have member : name ∈ args.keywords.names := by
            by_contra absent
            rw [NameMap.get?_eq_none_iff.mpr absent] at keyword
            cases keyword
          rw [passed?, placed_of_misfit_eq_nil takes (fits name member), if_pos takes]
          change NameMap.get? (args.keywords ++ named) name = some w
          rw [NameMap.get?_append, keyword]
          rfl
        case isFalse => cases keyword
    rw [same, Option.some_or] at hv
    exact .inl (by simpa using hv)
  | none =>
    by_cases reaches : sig.Reaches args name
    · simp [reaches]
    · rw [passed?_withMore_of_not_reaches distinct h reaches passed] at hv
      exact .inl (by simpa [reaches] using hv)

/-- Fewer positional arguments leave fewer of them over. -/
theorem excess_of_withMore (h : sig.excess (args.withMore more named) = []) :
    sig.excess args = [] := by
  unfold excess at h ⊢
  split at h
  case isTrue => cases h
  case isFalse few =>
    rw [if_neg]
    intro many
    refine few ?_
    simp only [Bool.and_eq_true, decide_eq_true_eq] at many ⊢
    refine ⟨?_, many.2⟩
    simp only [Args.withMore, List.length_append]
    omega

/-- With fewer positional arguments fewer parameters are filled before the keyword arguments. -/
theorem misfit_of_withMore
    (h : sig.misfit (sig.placed (args.withMore more named)) name = []) :
    sig.misfit (sig.placed args) name = [] := by
  unfold misfit at h ⊢
  split
  case isTrue takes =>
    have unfilled := placed_of_misfit_eq_nil takes (by rwa [misfit])
    rw [placed_withMore, NameMap.get?_append, Option.or_eq_none_iff] at unfilled
    simp [NameMap.has, unfilled.1]
  case isFalse takes => rwa [if_neg takes] at h

theorem rest?_of_withMore (sig : Signature) (h : args.Allows more named) :
    sig.rest? args = sig.rest? (args.withMore more named) ∨
      args.star.isSome ∧ sig.rest? args = none := by
  cases star : args.star with
  | some _ => exact .inr (by simp [rest?, star])
  | none => exact .inl (by simp [rest?, star, Args.withMore, h.positional star])

theorem others?_of_withMore (sig : Signature) (h : args.Allows more named) :
    sig.others? args = sig.others? (args.withMore more named) ∨
      args.starStar.isSome ∧ sig.others? args = none := by
  cases starStar : args.starStar with
  | some _ => exact .inr (by simp [others?, starStar])
  | none => exact .inl (by simp [others?, others, starStar, Args.withMore, h.keywords starStar])

/-- What a call with unknown arguments binds a parameter to: what the call `known` binds it to, or
something unknown where unknown arguments may reach it. -/
def BindsLike (sig : Signature) (args known : Args) (name : String) (v : Variable) : Prop :=
  (sig.mapArgs known).args.get? name = some v ∨
    sig.Reaches args name ∧ v = Value.any.var ∨
    args.star.isSome ∧ sig.varArgs = some name ∧ v = (Value.argTuple none).var ∨
    args.starStar.isSome ∧ sig.varKeywords = some name ∧ v = (Value.argDict none).var

theorem bindsLike_collected (distinct : sig.parameters.Nodup) (h : args.Allows more named)
    (hname : name ∈ sig.varArgs.toList ++ sig.varKeywords.toList) :
    ∃ v, (sig.mapArgs args).args.get? name = some v ∧
      sig.BindsLike args (args.withMore more named) name v := by
  rcases List.mem_append.mp hname with hname | hname
  · have held (args : Args) :
        (name, (Value.argTuple (sig.rest? args)).var) ∈ sig.collected args :=
      List.mem_append_left _ (List.mem_map_of_mem hname)
    refine ⟨_, get?_mapArgs_collected distinct h.nodup (held args), ?_⟩
    rw [BindsLike, get?_mapArgs_collected distinct h.distinct (held _)]
    rcases rest?_of_withMore sig h with same | ⟨star, unknown⟩
    · exact .inl (by rw [same])
    · exact .inr (.inr (.inl ⟨star, Option.mem_toList.mp hname, by rw [unknown]⟩))
  · have held (args : Args) :
        (name, (Value.argDict (sig.others? args)).var) ∈ sig.collected args :=
      List.mem_append_right _ (List.mem_map_of_mem hname)
    refine ⟨_, get?_mapArgs_collected distinct h.nodup (held args), ?_⟩
    rw [BindsLike, get?_mapArgs_collected distinct h.distinct (held _)]
    rcases others?_of_withMore sig h with same | ⟨starStar, unknown⟩
    · exact .inl (by rw [same])
    · exact .inr (.inr (.inr ⟨starStar, Option.mem_toList.mp hname, by rw [unknown]⟩))

/-- A call with unknown arguments fits where some arguments that the unknown ones may stand for make
it fit, and it binds every parameter as these do or to something unknown. -/
theorem mapArgs_of_withMore (distinct : sig.parameters.Nodup) (h : args.Allows more named)
    (fits : (sig.mapArgs (args.withMore more named)).errors = []) :
    (sig.mapArgs args).errors = [] ∧ ∀ name ∈ sig.parameters, ∃ v,
      (sig.mapArgs args).args.get? name = some v ∧
        sig.BindsLike args (args.withMore more named) name v := by
  have params : sig.namedParams.Nodup := (List.nodup_append.mp distinct).1
  obtain ⟨excess, keywords, filled⟩ := (errors_mapArgs_eq_nil_iff distinct h.distinct).mp fits
  have earlier : ∀ name ∈ args.keywords.names,
      sig.misfit (sig.placed (args.withMore more named)) name = [] := by
    intro name hname
    apply keywords
    rw [Args.withMore, NameMap.names_append]
    exact List.mem_append_left _ hname
  -- a parameter that is filled among more arguments is filled here
  have given : ∀ name ∈ sig.namedParams, ∃ v,
      sig.given? (args.withMore more named) name = some v ∧
        (sig.given? args name = some v ∨
          sig.Reaches args name ∧ sig.given? args name = some Value.any.var) := by
    intro name hname
    obtain ⟨v, hv⟩ := Option.isSome_iff_exists.mp (filled name hname)
    exact ⟨v, hv, given?_of_withMore params h earlier hv⟩
  constructor
  · rw [errors_mapArgs_eq_nil_iff distinct h.nodup]
    refine ⟨excess_of_withMore excess, fun name hname => misfit_of_withMore (earlier name hname),
      fun name hname => ?_⟩
    obtain ⟨v, -, hv | ⟨-, hv⟩⟩ := given name hname <;> simp [hv]
  · intro name hname
    rcases List.mem_append.mp hname with hname | hname
    · obtain ⟨v, known, hv⟩ := given name hname
      refine ⟨_, get?_mapArgs_named distinct h.nodup hname, ?_⟩
      rw [BindsLike, get?_mapArgs_named distinct h.distinct hname, known]
      rcases hv with hv | ⟨reaches, hv⟩
      · exact .inl (by simp [hv])
      · exact .inr (.inl ⟨reaches, by simp [hv]⟩)
    · exact bindsLike_collected distinct h hname

/-- `def f(a, b, c, *rest, k, **kw)`, the first of which is positional-only. -/
def spreadingSignature : Signature :=
  ⟨"f", ["a", "b", "c"], 1, ["k"], some "rest", some "kw", []⟩

/-- `f(0, *s, k=1, **d)`, with nothing known about `s` and `d`. -/
def spreadingCall : Args :=
  { Args.unknown [(Value.literal (.int 0)).var] with keywords := [("k", (Value.literal (.int 1)).var)] }

/-- The call fits because `f(0, 2, k=1, c=3, z=4)` does, and it binds the parameters like that one. -/
theorem mapArgs_spreadingCall :
    let more := [(Value.literal (.int 2)).var]
    let named := [("c", (Value.literal (.int 3)).var), ("z", (Value.literal (.int 4)).var)]
    spreadingSignature.parameters.Nodup ∧ spreadingCall.Allows more named ∧
      (spreadingSignature.mapArgs (spreadingCall.withMore more named)).errors = [] ∧
      (spreadingSignature.mapArgs spreadingCall).errors = [] ∧
      ∀ name ∈ ["a", "b", "c", "k", "rest", "kw"], ∃ v,
        (spreadingSignature.mapArgs spreadingCall).args.get? name = some v ∧
          spreadingSignature.BindsLike spreadingCall (spreadingCall.withMore more named) name v := by
  intro more named
  have distinct : spreadingSignature.parameters.Nodup := by decide
  have allows : spreadingCall.Allows more named := ⟨nofun, nofun, by decide⟩
  have fits : (spreadingSignature.mapArgs (spreadingCall.withMore more named)).errors = [] := by
    decide
  obtain ⟨errors, bound⟩ := mapArgs_of_withMore distinct allows fits
  exact ⟨distinct, allows, fits, errors, bound⟩

/-! ## Everything unknown -/

theorem zip_replicate {names : List String} {v : Variable} {count : Nat}
    (enough : names.length ≤ count) :
    names.zip (List.replicate count v) = names.map fun name => (name, v) := by
  induction names generalizing count with
  | nil => rfl
  | cons name rest ih =>
    obtain _ | count := count
    · cases enough
    · simp [List.replicate_succ, ih (Nat.le_of_succ_le_succ enough)]

/-- Every named parameter is within reach of unknown arguments. -/
theorem reaches_unknown {positional : List Variable} (h : name ∈ sig.namedParams) :
    sig.Reaches (.unknown positional) name := by
  rcases List.mem_append.mp h with h | h
  · exact .inl ⟨rfl, h⟩
  · exact .inr ⟨rfl, List.mem_append_right _ h⟩

theorem namedArgs_unknown (positional : List Variable) :
    sig.namedArgs (.unknown positional) = sig.namedParams.map fun name =>
      (name, (NameMap.get? (sig.params.zip positional) name).getD Value.any.var) := by
  refine List.map_congr_left fun name h => ?_
  have unnamed : (if sig.takesKeyword name then (Args.unknown positional).keywords.get? name
      else none) = none := by split <;> rfl
  rw [given?, if_pos (reaches_unknown h), passed?, unnamed, Option.or_none, placed]
  change (name, (((NameMap.get? (sig.params.zip positional) name).or _).or _).getD _) = _
  cases NameMap.get? (sig.params.zip positional) name <;> rfl

theorem collected_unknown (positional : List Variable) :
    sig.collected (.unknown positional) =
      sig.varArgs.toList.map (fun name => (name, (Value.argTuple none).var)) ++
        sig.varKeywords.toList.map fun name => (name, (Value.argDict none).var) := rfl

/-- Unknown arguments go to the named parameters in order, and the collecting ones are unknown. -/
theorem fakeArgs_of_nodup (distinct : sig.parameters.Nodup) (receiver : Option Value)
    (positional : List Variable) :
    sig.fakeArgs receiver =
      sig.namedParams.zip ((receiver.toList ++
        List.replicate sig.namedParams.length Value.any).map Value.var) ++
        sig.collected (.unknown positional) := by
  have params : sig.namedParams.Nodup := (List.nodup_append.mp distinct).1
  have names : NameMap.names (sig.namedParams.zip ((receiver.toList ++
      List.replicate sig.namedParams.length Value.any).map Value.var)) = sig.namedParams := by
    rw [NameMap.names_zip, List.take_of_length_le]
    simp
  rw [collected_unknown, ← giveRest_giveRest distinct names, fakeArgs,
    NameMap.ofEntries_of_nodup (by rwa [names])]

theorem args_unknown (distinct : sig.parameters.Nodup) (positional : List Variable) :
    (sig.mapArgs (.unknown positional)).args = (sig.namedParams.map fun name =>
      (name, (NameMap.get? (sig.params.zip positional) name).getD Value.any.var)) ++
        sig.collected (.unknown positional) := by
  have nothing : (Args.unknown positional).keywords.names.Nodup := List.nodup_nil
  rw [args_mapArgs distinct nothing, namedArgs_unknown]

/-- Without a receiver, a function is analysed as a call with nothing known would run it. -/
theorem fakeArgs_none (distinct : sig.parameters.Nodup) :
    sig.fakeArgs none = (sig.mapArgs (.unknown [])).args := by
  rw [fakeArgs_of_nodup distinct none [], args_unknown distinct]
  simp [zip_replicate]

/-- With a receiver, it is analysed as a call with this as the only known argument would run it, if
there is a positional parameter that takes the receiver, or no parameter at all. -/
theorem fakeArgs_some_iff (distinct : sig.parameters.Nodup) (receiver : Value) :
    sig.fakeArgs (some receiver) = (sig.mapArgs (.unknown [receiver.var])).args ↔
      sig.params ≠ [] ∨ sig.kwOnly = [] ∨ receiver = .any := by
  have params : sig.namedParams.Nodup := (List.nodup_append.mp distinct).1
  rw [fakeArgs_of_nodup distinct _ [receiver.var], args_unknown distinct, List.append_left_inj]
  unfold namedParams at params ⊢
  cases hparams : sig.params with
  | cons first rest =>
    -- the receiver goes to the first positional parameter in both
    rw [hparams, List.cons_append, List.nodup_cons] at params
    have others : (rest ++ sig.kwOnly).map (fun name =>
        (name, (NameMap.get? [(first, receiver.var)] name).getD Value.any.var)) =
          (rest ++ sig.kwOnly).map fun name => (name, Value.any.var) := by
      refine List.map_congr_left fun name hname => ?_
      have ne : first ≠ name := fun e => params.1 (e ▸ hname)
      simp [NameMap.get?, ne]
    refine iff_of_true ?_ (.inl (List.cons_ne_nil _ _))
    calc
      _ = (first, receiver.var) :: (rest ++ sig.kwOnly).map fun name => (name, Value.any.var) := by
        simp [zip_replicate]
      _ = _ := by
        rw [← others]
        simp [NameMap.get?]
  | nil =>
    cases hkw : sig.kwOnly with
    | nil => simp
    | cons first rest =>
      -- nothing takes the receiver here but the first keyword-only parameter
      simp [zip_replicate, Value.var, Variable.ofValue, Variable.ofValueAt]

end Signature

/-- A body is analysed by running it with its parameters bound to unknown arguments. -/
theorem Evaluator.analyseFunction_apply {ev : Evaluator} {ctx : Context} {id : FunctionId}
    {function : InterpretedFunction} (h : ctx.heap.functionAt id = .interpreted function)
    (receiver : Option Value) :
    ev.analyseFunction (receiver.elim (.function id) (.bound · id)) ctx =
      (do pure [← ev.runBody id function (function.signature.fakeArgs receiver)] :
        Analysis (List FrameId)) ctx := by
  cases receiver
  all_goals
    unfold analyseFunction
    dsimp only [Option.elim]
    rw [Step.bind_of_ok (functionAt_apply h)]
    rfl

namespace Signature

/-- Without a receiver, a body is analysed under the bindings of a call of which nothing is known.
With one, it is analysed under those of a call with the receiver as its only known argument just when
there is a positional parameter to take the receiver, or no keyword-only one that could. -/
theorem fakeArgs_eq_mapArgs_iff (distinct : sig.parameters.Nodup) (receiver : Value) :
    sig.fakeArgs none = (sig.mapArgs (.unknown [])).args ∧
      (sig.fakeArgs (some receiver) = (sig.mapArgs (.unknown [receiver.var])).args ↔
        sig.params ≠ [] ∨ sig.kwOnly = [] ∨ receiver = .any) ∧
      ∀ (ev : Evaluator) (ctx : Context) (id : FunctionId) (function : InterpretedFunction),
        ctx.heap.functionAt id = .interpreted function → function.signature = sig →
        ev.analyseFunction (.function id) ctx =
            (do pure [← ev.runBody id function (sig.mapArgs (.unknown [])).args] :
              Analysis (List FrameId)) ctx ∧
          (sig.params ≠ [] ∨ sig.kwOnly = [] ∨ receiver = .any →
            ev.analyseFunction (.bound receiver id) ctx =
              (do pure [← ev.runBody id function (sig.mapArgs (.unknown [receiver.var])).args] :
                Analysis (List FrameId)) ctx) := by
  refine ⟨fakeArgs_none distinct, fakeArgs_some_iff distinct receiver, ?_⟩
  rintro ev ctx id function known rfl
  constructor
  · rw [← fakeArgs_none distinct]
    exact Evaluator.analyseFunction_apply known none
  · intro takes
    rw [← (fakeArgs_some_iff distinct receiver).mpr takes]
    exact Evaluator.analyseFunction_apply known (some receiver)

/-- `def m(self, x, *args, k)` -/
def methodSignature : Signature := ⟨"m", ["self", "x"], 0, ["k"], some "args", none, []⟩

/-- A method with an ordinary first parameter is analysed as a call would run it. -/
theorem fakeArgs_methodSignature :
    let me := Value.literal (.str "me")
    methodSignature.parameters.Nodup ∧ methodSignature.params ≠ [] ∧
      methodSignature.fakeArgs none = (methodSignature.mapArgs (.unknown [])).args ∧
      methodSignature.fakeArgs (some me) = (methodSignature.mapArgs (.unknown [me.var])).args := by
  intro me
  have distinct : methodSignature.parameters.Nodup := by decide
  have takes : methodSignature.params ≠ [] := by decide
  obtain ⟨unbound, receives, -⟩ := fakeArgs_eq_mapArgs_iff distinct me
  exact ⟨distinct, takes, unbound, receives.mpr (.inl takes)⟩

/-- `def m(*args, k)` -/
def keywordOnlySignature : Signature := ⟨"m", [], 0, ["k"], some "args", none, []⟩

/-- A method that takes its receiver through `*args` is analysed with the receiver for the keyword-only
parameter, where a call leaves this one unknown. -/
theorem fakeArgs_keywordOnlySignature :
    let me := Value.literal (.str "me")
    keywordOnlySignature.parameters.Nodup ∧
      (keywordOnlySignature.fakeArgs (some me)).get? "k" = some me.var ∧
      (keywordOnlySignature.mapArgs (.unknown [me.var])).args.get? "k" = some Value.any.var ∧
      keywordOnlySignature.fakeArgs (some me) ≠
        (keywordOnlySignature.mapArgs (.unknown [me.var])).args := by
  intro me
  have analysed : (keywordOnlySignature.fakeArgs (some me)).get? "k" = some me.var := rfl
  have called : (keywordOnlySignature.mapArgs (.unknown [me.var])).args.get? "k" =
      some Value.any.var := rfl
  refine ⟨by decide, analysed, called, fun same => ?_⟩
  rw [same, called] at analysed
  simp [me, Value.var, Variable.ofValue, Variable.ofValueAt] at analysed

end Signature

end StubInference
