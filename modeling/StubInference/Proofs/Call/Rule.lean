import StubInference.Proofs.Call.Binding

/-!
# The rule of calls

How the arguments of a call go to the parameters of a code object, said of the code object, its defaults
and the arguments alone: which calls fit, and what each parameter is bound to. Binding arguments to the
signature of the code object follows this rule.

## Main definitions

* `CodeOver.WellNamed` — every parameter has a name of its own
* `Code.Accepts` — a call fits
* `Code.Binds` — parameters are bound to positional arguments, keyword arguments and defaults
* `Signature.Defaulted` — defaults of the last positional parameters, and of keyword-only ones

## Main results

* `CodeOver.take_paramCount` — the names of the parameters are the first ones of the layout
* `Signature.mapArgs_ofCode` — arguments are bound by the rule
-/

namespace StubInference

/-! ## The layout of parameters -/

namespace CodeOver

variable {Constant : Type} {code : CodeOver Constant}

/-- How many names the parameters of a code object take up. -/
def paramCount (code : CodeOver Constant) : Nat :=
  code.argCount + code.kwOnlyArgCount + code.varArgs.toNat + code.varKeywords.toNat

/-- The parameters in order: positional and keyword-only ones, `*args` and `**kwargs`. -/
def paramNames (code : CodeOver Constant) : List String :=
  code.positionalParams ++ code.kwOnlyParams ++
    (code.varArgsName?.toList ++ code.varKeywordsName?.toList)

/-- Every parameter has a name, and none has the name of another one. -/
structure WellNamed (code : CodeOver Constant) : Prop where
  fits : code.paramCount ≤ code.varNames.length
  distinct : (code.varNames.take code.paramCount).Nodup

theorem isSome_named {names : List String} {flag : Bool} {start : Nat}
    (fits : start + flag.toNat ≤ names.length) :
    (if flag then names[start]? else none).isSome = flag := by
  cases flag with
  | false => rfl
  | true =>
    have : start < names.length := fits
    simp [this]

theorem take_toNat {names : List String} {flag : Bool} {start : Nat}
    (fits : start + flag.toNat ≤ names.length) :
    (names.drop start).take flag.toNat = (if flag then names[start]? else none).toList := by
  cases flag with
  | false => simp
  | true =>
    have : start < names.length := fits
    simp [List.take_one, this]

/-- The names of the parameters are the first ones of the layout. -/
theorem take_paramCount (fits : code.paramCount ≤ code.varNames.length) :
    code.varNames.take code.paramCount = code.paramNames := by
  unfold paramCount at fits ⊢
  unfold paramNames positionalParams kwOnlyParams varArgsName? varKeywordsName?
  rw [← take_toNat fits, ← take_toNat (by omega), List.take_add, List.take_add, List.take_add]
  simp only [List.append_assoc]

theorem WellNamed.nodup (h : code.WellNamed) : code.paramNames.Nodup :=
  take_paramCount h.fits ▸ h.distinct

theorem WellNamed.length_positionalParams (h : code.WellNamed) :
    code.positionalParams.length = code.argCount := by
  have := h.fits
  unfold paramCount at this
  rw [positionalParams, List.length_take]
  omega

theorem WellNamed.isSome_varArgsName? (h : code.WellNamed) :
    code.varArgsName?.isSome = code.varArgs := by
  have := h.fits
  unfold paramCount at this
  exact isSome_named (by omega)

theorem WellNamed.isSome_varKeywordsName? (h : code.WellNamed) :
    code.varKeywordsName?.isSome = code.varKeywords :=
  isSome_named h.fits

/-- The parameters that a keyword argument may name. -/
def keywordParams (code : CodeOver Constant) : List String :=
  code.positionalParams.drop code.posOnlyArgCount ++ code.kwOnlyParams

/-- The default of the positional parameter at a position. The last of the defaults belongs to the last
of these parameters. -/
def defaultAt? (code : CodeOver Constant) (defaults : List Variable) (i : Nat) : Option Variable :=
  if code.argCount - defaults.length ≤ i then defaults[i - (code.argCount - defaults.length)]?
  else none

end CodeOver

/-! ## The rule -/

/-- A call fits the parameters of a code object. -/
structure Code.Accepts (code : Code) (defaults : List Variable) (kwDefaults : NameMap Variable)
    (args : Args) : Prop where
  positional : args.positional.length ≤ code.argCount ∨ code.varArgs = true
  keywords : ∀ name ∈ args.keywords.names,
    name ∈ code.keywordParams ∧ name ∉ code.positionalParams.take args.positional.length ∨
      name ∉ code.keywordParams ∧ code.varKeywords = true
  filled : ∀ i (h : i < code.positionalParams.length), i < args.positional.length ∨
    code.posOnlyArgCount ≤ i ∧ code.positionalParams[i] ∈ args.keywords.names ∨
      code.argCount - defaults.length ≤ i
  kwFilled : ∀ name ∈ code.kwOnlyParams, name ∈ args.keywords.names ∨ name ∈ kwDefaults.names

/-- Every parameter of a code object is bound to what a call gives to it: a positional parameter to its
positional argument, else its keyword argument, else its default, a keyword-only one to its keyword
argument, else its default, and the collecting ones to what is left. -/
structure Code.Binds (code : Code) (defaults : List Variable) (kwDefaults : NameMap Variable)
    (args : Args) (bound : NameMap Variable) : Prop where
  positional : ∀ i (h : i < code.positionalParams.length),
    bound.get? code.positionalParams[i] = args.positional[i]?.or
      ((if code.posOnlyArgCount ≤ i then args.keywords.get? code.positionalParams[i] else none).or
        (code.defaultAt? defaults i))
  kwOnly : ∀ name ∈ code.kwOnlyParams,
    bound.get? name = (args.keywords.get? name).or (kwDefaults.get? name)
  varArgs : ∀ name, code.varArgsName? = some name →
    bound.get? name = some (Value.argTuple (some (args.positional.drop code.argCount))).var
  varKeywords : ∀ name, code.varKeywordsName? = some name →
    bound.get? name = some (Value.argDict (some (args.keywords.filter fun entry =>
      entry.1 ∉ code.keywordParams))).var

namespace Signature

variable {code : Code} {defaults : List Variable} {kwDefaults : NameMap Variable} {args : Args}

theorem parameters_ofCode : (ofCode code defaults kwDefaults).parameters = code.paramNames := rfl

theorem keywordParams_ofCode :
    (ofCode code defaults kwDefaults).keywordParams = code.keywordParams := by
  unfold keywordParams CodeOver.keywordParams ofCode
  dsimp only
  congr 1
  rcases Nat.le_total code.posOnlyArgCount code.positionalParams.length with h | h
  · rw [Nat.min_eq_left h]
  · rw [Nat.min_eq_right h, List.drop_length, List.drop_of_length_le h]

/-- Defaults of the last positional parameters, and defaults of keyword-only ones. -/
structure Defaulted (code : Code) (defaults : List Variable) (kwDefaults : NameMap Variable) :
    Prop where
  named : code.WellNamed
  few : defaults.length ≤ code.argCount
  nodup : kwDefaults.names.Nodup
  kwOnly : ∀ name ∈ kwDefaults.names, name ∈ code.kwOnlyParams

namespace Defaulted

variable (h : Defaulted code defaults kwDefaults)

include h

theorem nodup_positional : code.positionalParams.Nodup :=
  (List.nodup_append.mp (List.nodup_append.mp h.named.nodup).1).1

theorem not_mem_kwOnly {name : String} (hname : name ∈ code.positionalParams) :
    name ∉ code.kwOnlyParams := fun hkw =>
  (List.nodup_append.mp (List.nodup_append.mp h.named.nodup).1).2.2 _ hname _ hkw rfl

theorem defaults_eq : (ofCode code defaults kwDefaults).defaults =
    (code.positionalParams.drop (code.argCount - defaults.length)).zip defaults ++ kwDefaults := by
  unfold ofCode
  dsimp only
  rw [h.named.length_positionalParams]
  apply NameMap.ofEntries_of_nodup
  rw [NameMap.names_append, List.nodup_append, NameMap.names_zip]
  have shorter : ((code.positionalParams.drop (code.argCount - defaults.length)).take
      defaults.length).Sublist code.positionalParams :=
    (List.take_sublist _ _).trans (List.drop_sublist _ _)
  refine ⟨h.nodup_positional.sublist shorter, h.nodup, fun name hname other hother same => ?_⟩
  exact h.not_mem_kwOnly (shorter.subset hname) (same ▸ h.kwOnly other hother)

theorem default_positional {i : Nat} (hi : i < code.positionalParams.length) :
    (ofCode code defaults kwDefaults).defaults.get? code.positionalParams[i] =
      code.defaultAt? defaults i := by
  have absent : kwDefaults.get? code.positionalParams[i] = none :=
    NameMap.get?_eq_none_iff.mpr fun hkw =>
      h.not_mem_kwOnly (List.getElem_mem hi) (h.kwOnly _ hkw)
  rw [h.defaults_eq, NameMap.get?_append, absent, Option.or_none]
  unfold CodeOver.defaultAt?
  split
  case isTrue le =>
    -- the parameter is the one at this position less those without a default
    have shorter : i - (code.argCount - defaults.length) <
        (code.positionalParams.drop (code.argCount - defaults.length)).length := by
      rw [List.length_drop]
      omega
    have position : code.positionalParams[i] =
        (code.positionalParams.drop (code.argCount - defaults.length))[i -
          (code.argCount - defaults.length)] := by
      simp [Nat.add_sub_cancel' le]
    rw [position]
    exact NameMap.get?_zip_getElem (h.nodup_positional.sublist (List.drop_sublist _ _)) _ shorter
  case isFalse lt =>
    rw [NameMap.get?_eq_none_iff, NameMap.names_zip]
    intro mem
    exact lt ((mem_drop_getElem_iff h.nodup_positional hi).mp (List.mem_of_mem_take mem))

theorem default_kwOnly {name : String} (hname : name ∈ code.kwOnlyParams) :
    (ofCode code defaults kwDefaults).defaults.get? name = kwDefaults.get? name := by
  have absent : NameMap.get? ((code.positionalParams.drop
      (code.argCount - defaults.length)).zip defaults) name = none := by
    rw [NameMap.get?_eq_none_iff, NameMap.names_zip]
    exact fun mem => h.not_mem_kwOnly (List.mem_of_mem_drop (List.mem_of_mem_take mem)) hname
  rw [h.defaults_eq, NameMap.get?_append, absent, Option.none_or]

/-! ### What a call gives to a parameter -/

theorem nodup_parameters : (ofCode code defaults kwDefaults).parameters.Nodup := by
  rw [parameters_ofCode]
  exact h.named.nodup

theorem takesKeyword_iff_mem {name : String} :
    (ofCode code defaults kwDefaults).takesKeyword name = true ↔ name ∈ code.keywordParams := by
  have named : (ofCode code defaults kwDefaults).namedParams.Nodup :=
    (List.nodup_append.mp h.nodup_parameters).1
  rw [takesKeyword_iff named, keywordParams_ofCode]

theorem takesKeyword_positional {i : Nat} (hi : i < code.positionalParams.length) :
    (ofCode code defaults kwDefaults).takesKeyword code.positionalParams[i] = true ↔
      code.posOnlyArgCount ≤ i := by
  rw [h.takesKeyword_iff_mem, CodeOver.keywordParams, List.mem_append,
    mem_drop_getElem_iff h.nodup_positional hi]
  exact or_iff_left (h.not_mem_kwOnly (List.getElem_mem hi))

theorem takesKeyword_kwOnly {name : String} (hname : name ∈ code.kwOnlyParams) :
    (ofCode code defaults kwDefaults).takesKeyword name = true :=
  h.takesKeyword_iff_mem.mpr (List.mem_append_right _ hname)

theorem given?_positional (star : args.star = none) (starStar : args.starStar = none) {i : Nat}
    (hi : i < code.positionalParams.length) :
    (ofCode code defaults kwDefaults).given? args code.positionalParams[i] =
      args.positional[i]?.or
        ((if code.posOnlyArgCount ≤ i then args.keywords.get? code.positionalParams[i] else none).or
          (code.defaultAt? defaults i)) := by
  have place : ((ofCode code defaults kwDefaults).placed args).get? code.positionalParams[i] =
      args.positional[i]? := NameMap.get?_zip_getElem h.nodup_positional _ hi
  rw [given?, passed?, place, h.default_positional hi]
  simp only [h.takesKeyword_positional hi]
  simp [Reaches, star, starStar, Option.or_assoc]

theorem given?_kwOnly (star : args.star = none) (starStar : args.starStar = none) {name : String}
    (hname : name ∈ code.kwOnlyParams) :
    (ofCode code defaults kwDefaults).given? args name =
      (args.keywords.get? name).or (kwDefaults.get? name) := by
  have unplaced : ((ofCode code defaults kwDefaults).placed args).get? name = none := by
    rw [NameMap.get?_eq_none_iff, names_placed]
    exact fun mem => h.not_mem_kwOnly (List.mem_of_mem_take mem) hname
  rw [given?, passed?, unplaced, h.default_kwOnly hname, if_pos (h.takesKeyword_kwOnly hname)]
  simp [Reaches, star, starStar]

/-! ### The rule -/

theorem excess_eq_nil_iff : (ofCode code defaults kwDefaults).excess args = [] ↔
    args.positional.length ≤ code.argCount ∨ code.varArgs = true := by
  have length : (ofCode code defaults kwDefaults).params.length = code.argCount :=
    h.named.length_positionalParams
  have collects : (ofCode code defaults kwDefaults).varArgs.isSome = code.varArgs :=
    h.named.isSome_varArgsName?
  rw [excess, length, ← collects]
  cases (ofCode code defaults kwDefaults).varArgs <;> simp

theorem misfit_eq_nil_iff (name : String) :
    (ofCode code defaults kwDefaults).misfit ((ofCode code defaults kwDefaults).placed args) name =
        [] ↔
      name ∈ code.keywordParams ∧ name ∉ code.positionalParams.take args.positional.length ∨
        name ∉ code.keywordParams ∧ code.varKeywords = true := by
  have collects : (ofCode code defaults kwDefaults).varKeywords.isSome = code.varKeywords :=
    h.named.isSome_varKeywordsName?
  have filled : ((ofCode code defaults kwDefaults).placed args).has name = true ↔
      name ∈ code.positionalParams.take args.positional.length := by
    rw [NameMap.has_iff, names_placed]
    rfl
  rw [misfit, collects]
  simp only [h.takesKeyword_iff_mem, filled]
  by_cases named : name ∈ code.keywordParams <;> simp [named]

/-- A positional parameter is filled by position, by a keyword argument, or by a default. -/
theorem given?_positional_isSome (star : args.star = none) (starStar : args.starStar = none) {i : Nat}
    (hi : i < code.positionalParams.length) :
    ((ofCode code defaults kwDefaults).given? args code.positionalParams[i]).isSome ↔
      i < args.positional.length ∨
        code.posOnlyArgCount ≤ i ∧ code.positionalParams[i] ∈ args.keywords.names ∨
          code.argCount - defaults.length ≤ i := by
  have few := h.few
  have length := h.named.length_positionalParams
  have position : (args.positional[i]?).isSome ↔ i < args.positional.length := by simp
  have keyword : (args.keywords.get? code.positionalParams[i]).isSome ↔
      code.positionalParams[i] ∈ args.keywords.names := NameMap.has_iff
  have default : (code.defaultAt? defaults i).isSome ↔ code.argCount - defaults.length ≤ i := by
    unfold CodeOver.defaultAt?
    split
    · simp; omega
    · simp; omega
  rw [h.given?_positional star starStar hi, Option.isSome_or, Option.isSome_or, Bool.or_eq_true,
    Bool.or_eq_true, position, default, ← keyword]
  by_cases le : code.posOnlyArgCount ≤ i <;> simp [le]

theorem accepts_iff (star : args.star = none) (starStar : args.starStar = none)
    (keywords : args.keywords.names.Nodup) :
    ((ofCode code defaults kwDefaults).mapArgs args).errors = [] ↔
      code.Accepts defaults kwDefaults args := by
  have kwOnly {name : String} (hname : name ∈ code.kwOnlyParams) :
      ((ofCode code defaults kwDefaults).given? args name).isSome ↔
        name ∈ args.keywords.names ∨ name ∈ kwDefaults.names := by
    rw [h.given?_kwOnly star starStar hname, Option.isSome_or, Bool.or_eq_true]
    exact or_congr NameMap.has_iff NameMap.has_iff
  rw [errors_mapArgs_eq_nil_iff h.nodup_parameters keywords, h.excess_eq_nil_iff]
  simp only [h.misfit_eq_nil_iff]
  constructor
  · rintro ⟨positional, fits, filled⟩
    refine ⟨positional, fits, fun i hi => ?_, fun name hname => ?_⟩
    · exact (h.given?_positional_isSome star starStar hi).mp
        (filled _ (List.mem_append_left _ (List.getElem_mem hi)))
    · exact (kwOnly hname).mp (filled _ (List.mem_append_right _ hname))
  · rintro ⟨positional, fits, filled, kwFilled⟩
    refine ⟨positional, fits, fun name hname => ?_⟩
    rcases List.mem_append.mp hname with hname | hname
    · obtain ⟨i, hi, rfl⟩ := List.getElem_of_mem hname
      exact (h.given?_positional_isSome star starStar hi).mpr (filled i hi)
    · exact (kwOnly hname).mpr (kwFilled name hname)

theorem binds (star : args.star = none) (starStar : args.starStar = none)
    (keywords : args.keywords.names.Nodup)
    (fits : ((ofCode code defaults kwDefaults).mapArgs args).errors = []) :
    code.Binds defaults kwDefaults args ((ofCode code defaults kwDefaults).mapArgs args).args := by
  obtain ⟨-, -, filled⟩ := (errors_mapArgs_eq_nil_iff h.nodup_parameters keywords).mp fits
  -- no parameter is left without a value, so each is bound to what it is given
  have given {name : String} (hname : name ∈ (ofCode code defaults kwDefaults).namedParams) :
      ((ofCode code defaults kwDefaults).mapArgs args).args.get? name =
        (ofCode code defaults kwDefaults).given? args name := by
    obtain ⟨v, hv⟩ := Option.isSome_iff_exists.mp (filled name hname)
    rw [get?_mapArgs_named h.nodup_parameters keywords hname, hv]
    rfl
  constructor
  case positional =>
    intro i hi
    rw [given (List.mem_append_left _ (List.getElem_mem hi)), h.given?_positional star starStar hi]
  case kwOnly =>
    intro name hname
    rw [given (List.mem_append_right _ hname), h.given?_kwOnly star starStar hname]
  case varArgs =>
    intro name hname
    have rest : (ofCode code defaults kwDefaults).rest? args =
        some (args.positional.drop code.argCount) := by
      rw [← h.named.length_positionalParams]
      simp only [rest?, star, Option.isSome_none, Bool.false_eq_true, if_false]
      rfl
    rw [← rest]
    apply get?_mapArgs_collected h.nodup_parameters keywords
    exact List.mem_append_left _ (List.mem_map_of_mem (Option.mem_toList.mpr hname))
  case varKeywords =>
    intro name hname
    have others : (ofCode code defaults kwDefaults).others? args =
        some (args.keywords.filter fun entry => entry.1 ∉ code.keywordParams) := by
      simp only [others?, starStar, Option.isSome_none, Bool.false_eq_true, if_false, others]
      congr 1
      refine List.filter_congr fun entry _ => ?_
      simp [← h.takesKeyword_iff_mem]
    rw [← others]
    apply get?_mapArgs_collected h.nodup_parameters keywords
    exact List.mem_append_right _ (List.mem_map_of_mem (Option.mem_toList.mpr hname))

end Defaulted

/-- A call binds the parameters of a code object in their order. If it has no unknown arguments, it
fits just when the rule accepts it, and then it binds them by the rule. -/
theorem mapArgs_ofCode (h : Defaulted code defaults kwDefaults)
    (keywords : args.keywords.names.Nodup) :
    ((ofCode code defaults kwDefaults).mapArgs args).args.names =
        code.positionalParams ++ code.kwOnlyParams ++
          (code.varArgsName?.toList ++ code.varKeywordsName?.toList) ∧
      (args.star = none → args.starStar = none →
        (((ofCode code defaults kwDefaults).mapArgs args).errors = [] ↔
          code.Accepts defaults kwDefaults args) ∧
        (((ofCode code defaults kwDefaults).mapArgs args).errors = [] →
          code.Binds defaults kwDefaults args
            ((ofCode code defaults kwDefaults).mapArgs args).args)) :=
  ⟨names_mapArgs h.named.nodup keywords, fun star starStar =>
    ⟨h.accepts_iff star starStar keywords, h.binds star starStar keywords⟩⟩

/-- `def f(a, b, c=7, *rest, k, **kw)`, the first parameter of which is positional-only. -/
def mixedCode : Code :=
  ⟨"f", "f", "", 1, none, 3, 1, 1, true, true, ["a", "b", "c", "k", "rest", "kw", "local"], [], []⟩

/-- `f(1, k=2, a=3, b=4)` -/
def mixedCall : Args :=
  { Args.empty with
    positional := [(Value.literal (.int 1)).var]
    keywords := [("k", (Value.literal (.int 2)).var), ("a", (Value.literal (.int 3)).var),
      ("b", (Value.literal (.int 4)).var)] }

/-- The call fits: `a` is positional-only, so its keyword argument is a further one, and `c` has the
only default. -/
theorem mapArgs_mixedCode :
    let defaults := [(Value.literal (.int 7)).var]
    let mapped := (ofCode mixedCode defaults []).mapArgs mixedCall
    Defaulted mixedCode defaults [] ∧ mixedCall.keywords.names.Nodup ∧
      mixedCall.star = none ∧ mixedCall.starStar = none ∧
      mapped.args.names = ["a", "b", "c", "k", "rest", "kw"] ∧ mapped.errors = [] ∧
      mixedCode.Accepts defaults [] mixedCall ∧ mixedCode.Binds defaults [] mixedCall mapped.args := by
  intro defaults mapped
  have defaulted : Defaulted mixedCode defaults [] :=
    ⟨⟨by decide, by decide⟩, by decide, by decide, nofun⟩
  have keywords : mixedCall.keywords.names.Nodup := by decide
  have fits : mapped.errors = [] := by decide
  obtain ⟨names, rule⟩ := mapArgs_ofCode defaulted keywords
  obtain ⟨accepts, binds⟩ := rule rfl rfl
  exact ⟨defaulted, keywords, rfl, rfl, names, fits, accepts.mp fits, binds fits⟩

end Signature

end StubInference
