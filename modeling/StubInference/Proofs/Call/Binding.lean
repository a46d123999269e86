import StubInference.Call.Signature
import StubInference.Proofs.Value.Tables

/-!
# Binding arguments

Arguments are handed out in several passes over tables that change. When no parameter has the name of
another one, what comes out has a closed form: every named parameter holds what the call gives to it,
the collecting ones hold what is left, and each report has one cause.

## Main definitions

* `Signature.parameters`, `Signature.keywordParams` — the parameters in order, and those that keyword
  arguments go to
* `Signature.passed?`, `Signature.given?` — the argument of a named parameter, and what it is bound to
* `Signature.misfit` — what one keyword argument reports
* `Signature.namedArgs`, `Signature.collected` — what all parameters are bound to

## Main results

* `Signature.args_mapArgs`, `Signature.errors_mapArgs` — what a call binds and what it reports
* `Signature.errors_mapArgs_eq_nil_iff` — which calls fit
-/

namespace StubInference

theorem mem_drop_getElem_iff {names : List String} (distinct : names.Nodup) {i k : Nat}
    (hi : i < names.length) : names[i] ∈ names.drop k ↔ k ≤ i := by
  constructor
  · intro h
    obtain ⟨j, hj, same⟩ := List.mem_drop_iff_getElem.mp h
    have := distinct.getElem_inj_iff.mp same
    omega
  · intro le
    exact List.mem_drop_iff_getElem.mpr ⟨i - k, by omega, by simp [Nat.add_sub_cancel' le]⟩

namespace Signature

variable {sig : Signature} {args : Args} {name : String} {bound : NameMap Variable}

/-! ## Parameters -/

/-- The parameters in the order in which a call binds them. -/
def parameters (sig : Signature) : List String :=
  sig.namedParams ++ (sig.varArgs.toList ++ sig.varKeywords.toList)

/-- The parameters that keyword arguments go to. -/
def keywordParams (sig : Signature) : List String :=
  sig.params.drop sig.posOnlyCount ++ sig.kwOnly

theorem takesKeyword_iff (distinct : sig.namedParams.Nodup) :
    sig.takesKeyword name = true ↔ name ∈ sig.keywordParams := by
  obtain ⟨params, -, apart⟩ := List.nodup_append.mp distinct
  unfold takesKeyword keywordParams
  split
  case h_1 i hi =>
    obtain ⟨hlt, here, -⟩ := List.findIdx?_eq_some_iff_getElem.mp hi
    obtain rfl : sig.params[i] = name := by simpa using here
    have others : sig.params[i] ∉ sig.kwOnly := fun h => apart _ (List.getElem_mem hlt) _ h rfl
    -- a parameter stands behind the positional-only ones where its first occurrence does
    rw [decide_eq_true_eq, List.mem_append, mem_drop_getElem_iff params hlt, or_iff_left others]
  case h_2 hnone =>
    have absent : name ∉ sig.params := fun h => by
      have := List.findIdx?_eq_none_iff.mp hnone name h
      simp at this
    have later : name ∉ sig.params.drop sig.posOnlyCount :=
      fun h => absent (List.mem_of_mem_drop h)
    simp [later]

/-! ## What a call passes -/

/-- The parameters that positional arguments fill, with what they fill them with. -/
def placed (sig : Signature) (args : Args) : NameMap Variable := sig.params.zip args.positional

/-- The argument that a call passes to a named parameter: by position, else by its name. -/
def passed? (sig : Signature) (args : Args) (name : String) : Option Variable :=
  ((sig.placed args).get? name).or
    (if sig.takesKeyword name then args.keywords.get? name else none)

/-- Whether arguments of unknown number, or of unknown names, may reach a parameter. -/
def Reaches (sig : Signature) (args : Args) (name : String) : Prop :=
  args.star.isSome ∧ name ∈ sig.params ∨ args.starStar.isSome ∧ name ∈ sig.keywordParams

instance : Decidable (sig.Reaches args name) := inferInstanceAs (Decidable (_ ∨ _))

/-- What a call gives to a named parameter: its argument, else something unknown that may reach it,
else its default. -/
def given? (sig : Signature) (args : Args) (name : String) : Option Variable :=
  ((sig.passed? args name).or (if sig.Reaches args name then some Value.any.var else none)).or
    (sig.defaults.get? name)

/-- What a keyword argument reports, given the parameters that are bound already. -/
def misfit (sig : Signature) (bound : NameMap Variable) (name : String) : List ArgError :=
  if sig.takesKeyword name then if bound.has name then [.duplicateKeyword name] else []
  else if sig.varKeywords.isSome then [] else [.unexpectedKeyword name]

/-- The keyword arguments that go to no named parameter. -/
def others (sig : Signature) (args : Args) : NameMap Variable :=
  args.keywords.filter fun entry => !sig.takesKeyword entry.1

/-! ## The passes over the arguments -/

theorem names_placed : (sig.placed args).names = sig.params.take args.positional.length :=
  NameMap.names_zip ..

theorem placed_of_nodup (distinct : sig.params.Nodup) :
    (sig.placed args).names.Nodup := by
  rw [names_placed]
  exact distinct.sublist (List.take_sublist _ _)

theorem ofEntries_placed (distinct : sig.params.Nodup) :
    NameMap.ofEntries (sig.params.zip args.positional) = sig.placed args :=
  NameMap.ofEntries_of_nodup (placed_of_nodup distinct)

theorem errors_giveKeyword (d : Distribution) (name : String) (v : Variable) :
    (sig.giveKeyword d (name, v)).errors = d.errors ++ sig.misfit d.bound name := by
  unfold giveKeyword misfit
  dsimp only
  split <;> split <;> simp

theorem bound_giveKeyword_of_ne (d : Distribution) {name other : String} (v : Variable)
    (h : name ≠ other) : (sig.giveKeyword d (name, v)).bound.get? other = d.bound.get? other := by
  unfold giveKeyword
  dsimp only
  split <;> split <;> simp [NameMap.get?_insert_of_ne _ _ h]

theorem bound_giveKeyword_self (d : Distribution) (name : String) (v : Variable) :
    (sig.giveKeyword d (name, v)).bound.get? name =
      (d.bound.get? name).or (if sig.takesKeyword name then some v else none) := by
  unfold giveKeyword
  dsimp only
  split
  case isTrue =>
    split
    case isTrue has =>
      obtain ⟨w, hw⟩ := Option.isSome_iff_exists.mp has
      simp [hw]
    case isFalse has =>
      have : d.bound.get? name = none := by simpa [NameMap.has] using has
      simp [this, NameMap.get?_insert_self]
  case isFalse => split <;> simp

/-- What keyword arguments report depends on the parameters bound before, not on one another. -/
theorem misfit_congr {bound bound' : NameMap Variable} (h : bound.get? name = bound'.get? name) :
    sig.misfit bound name = sig.misfit bound' name := by
  unfold misfit NameMap.has
  rw [h]

theorem foldl_giveKeyword {keywords : NameMap Variable} (distinct : keywords.names.Nodup)
    (d : Distribution) :
    (keywords.foldl sig.giveKeyword d).errors =
        d.errors ++ keywords.names.flatMap (sig.misfit d.bound) ∧
      ∀ name, (keywords.foldl sig.giveKeyword d).bound.get? name = (d.bound.get? name).or
        (if sig.takesKeyword name then keywords.get? name else none) := by
  induction keywords generalizing d with
  | nil => simp [NameMap.names]
  | cons entry rest ih =>
    obtain ⟨key, v⟩ := entry
    obtain ⟨new, distinct⟩ := List.nodup_cons.mp distinct
    obtain ⟨errors, bound⟩ := ih distinct (sig.giveKeyword d (key, v))
    constructor
    · -- the other keywords have other names, so the first one has not touched their parameters
      have same : ∀ name ∈ NameMap.names rest,
          sig.misfit (sig.giveKeyword d (key, v)).bound name = sig.misfit d.bound name := by
        intro name hname
        have ne : key ≠ name := fun e => new (e ▸ hname)
        exact misfit_congr (bound_giveKeyword_of_ne d v ne)
      rw [List.foldl_cons, errors, errors_giveKeyword, List.flatMap_congr same]
      simp [NameMap.names]
    · intro name
      rw [List.foldl_cons, bound]
      by_cases h : key = name
      · subst h
        have absent : NameMap.get? rest key = none := NameMap.get?_eq_none_iff.mpr new
        rw [bound_giveKeyword_self, absent]
        simp [NameMap.get?]
      · rw [bound_giveKeyword_of_ne d v h]
        simp [NameMap.get?, h]

theorem extra_giveKeywords {keywords : NameMap Variable} (d : Distribution)
    (distinct : (d.extra ++ keywords).names.Nodup) (collects : sig.varKeywords.isSome) :
    (keywords.foldl sig.giveKeyword d).extra =
      d.extra ++ keywords.filter fun entry => !sig.takesKeyword entry.1 := by
  induction keywords generalizing d with
  | nil => simp
  | cons entry rest ih =>
    obtain ⟨key, v⟩ := entry
    have new : key ∉ d.extra.names := by
      rw [NameMap.names_append, List.nodup_append] at distinct
      exact fun old => distinct.2.2 _ old _ (by simp [NameMap.names]) rfl
    by_cases takes : sig.takesKeyword key = true
    · have extra : (sig.giveKeyword d (key, v)).extra = d.extra := by
        simp only [giveKeyword, takes, if_true]
        split <;> rfl
      have fewer : (d.extra ++ rest).names.Nodup := by
        refine distinct.sublist ?_
        simp [NameMap.names]
      rw [List.foldl_cons, ih _ (by rwa [extra]), extra]
      simp [takes]
    · have extra : (sig.giveKeyword d (key, v)).extra = d.extra ++ [(key, v)] := by
        simp only [giveKeyword, takes, collects, if_true]
        exact NameMap.insert_of_not_mem new
      rw [List.foldl_cons, ih _ (by rw [extra]; simpa using distinct), extra]
      simp [takes]

theorem get?_fillUnknown (names : List String) :
    (fillUnknown bound names).get? name =
      (bound.get? name).or (if name ∈ names then some Value.any.var else none) := by
  induction names generalizing bound with
  | nil => simp [fillUnknown]
  | cons other rest ih =>
    have step : (fillUnknown bound (other :: rest)) = fillUnknown
        (if bound.has other then bound else bound.insert other Value.any.var) rest := rfl
    rw [step, ih]
    by_cases h : other = name
    · subst h
      cases hb : bound.get? other with
      | none => simp [NameMap.has, hb, NameMap.get?_insert_self]
      | some v => simp [NameMap.has, hb]
    · have others : NameMap.get? (if bound.has other then bound
          else bound.insert other Value.any.var) name = bound.get? name := by
        split
        · rfl
        · exact NameMap.get?_insert_of_ne _ _ h
      rw [others]
      simp [Ne.symm h]

theorem get?_fillStars : (sig.fillStars args bound).get? name =
    (bound.get? name).or (if sig.Reaches args name then some Value.any.var else none) := by
  have star : (if args.star.isSome then fillUnknown bound sig.params else bound).get? name =
      (bound.get? name).or
        (if args.star.isSome ∧ name ∈ sig.params then some Value.any.var else none) := by
    by_cases h : args.star.isSome <;> simp [h, get?_fillUnknown]
  unfold fillStars Reaches
  dsimp only
  by_cases h : args.starStar.isSome = true
  · rw [if_pos h, get?_fillUnknown, star, Option.or_assoc]
    by_cases h' : args.star.isSome ∧ name ∈ sig.params <;> simp [h, h', keywordParams]
  · rw [if_neg h, star]
    simp [h]

/-- Parameters of distinct names are settled one by one. -/
theorem settle_of_nodup {names : List String} {mapped : MappedArgs} {value : String → Option Variable}
    (distinct : (mapped.args.names ++ names).Nodup)
    (values : ∀ n ∈ names, (bound.get? n).or (sig.defaults.get? n) = value n) :
    sig.settle bound names mapped =
      ⟨mapped.args ++ names.map fun n => (n, (value n).getD Value.any.var),
        mapped.errors ++ (names.filter fun n => (value n).isNone).map .missingParameter⟩ := by
  induction names generalizing bound mapped with
  | nil => simp [settle]
  | cons name rest ih =>
    obtain ⟨-, later, apart⟩ := List.nodup_append.mp distinct
    obtain ⟨here, others⟩ := List.forall_mem_cons.mp values
    have new : name ∉ mapped.args.names := fun old => apart _ old _ (by simp) rfl
    have once : name ∉ rest := (List.nodup_cons.mp later).1
    have next (v : Variable) : ((mapped.args.insert name v).names ++ rest).Nodup := by
      rw [NameMap.insert_of_not_mem new]
      simpa [NameMap.names] using distinct
    rw [settle]
    split
    case h_1 _ v hv =>
      -- the argument is used up, which no later parameter sees
      have same : ∀ n ∈ rest, ((bound.erase name).get? n).or (sig.defaults.get? n) = value n := by
        intro n hn
        have ne : name ≠ n := fun e => once (e ▸ hn)
        rw [NameMap.get?_erase_of_ne bound ne]
        exact others n hn
      rw [ih (next v) same]
      simp [← here, hv, NameMap.insert_of_not_mem new]
    case h_2 v hv hd =>
      rw [ih (next v) others]
      simp [← here, hv, hd, NameMap.insert_of_not_mem new]
    case h_3 hv hd =>
      rw [ih (next _) others]
      simp [← here, hv, hd, NameMap.insert_of_not_mem new]

/-! ## What a call binds -/

/-- What the parameter that collects positional arguments is bound to. -/
def rest? (sig : Signature) (args : Args) : Option (List Variable) :=
  if args.star.isSome then none else some (args.positional.drop sig.params.length)

/-- What the parameter that collects keyword arguments is bound to. -/
def others? (sig : Signature) (args : Args) : Option (NameMap Variable) :=
  if args.starStar.isSome then none else some (sig.others args)

/-- The arguments of a call with every keyword argument handed out. -/
def handedOut (sig : Signature) (args : Args) : Distribution :=
  args.keywords.foldl sig.giveKeyword
    ⟨NameMap.ofEntries (sig.params.zip args.positional), [], sig.excess args⟩

theorem bound_handedOut (distinct : sig.params.Nodup) (keywords : args.keywords.names.Nodup)
    (name : String) :
    ((sig.fillStars args (sig.handedOut args).bound).get? name).or (sig.defaults.get? name) =
      sig.given? args name := by
  rw [get?_fillStars, handedOut, (foldl_giveKeyword keywords _).2, ofEntries_placed distinct]
  rfl

theorem errors_handedOut (distinct : sig.params.Nodup) (keywords : args.keywords.names.Nodup) :
    (sig.handedOut args).errors =
      sig.excess args ++ args.keywords.names.flatMap (sig.misfit (sig.placed args)) := by
  rw [handedOut, (foldl_giveKeyword keywords _).1, ofEntries_placed distinct]

theorem extra_handedOut (keywords : args.keywords.names.Nodup) (collects : sig.varKeywords.isSome) :
    (sig.handedOut args).extra = sig.others args :=
  extra_giveKeywords _ keywords collects

theorem giveRest_of_not_mem {rest : Option String} (a : Value)
    (new : ∀ name ∈ rest.toList, name ∉ bound.names) :
    giveRest rest a bound = bound ++ rest.toList.map fun name => (name, a.var) := by
  cases rest with
  | none => simp [giveRest]
  | some name => exact NameMap.insert_of_not_mem (new name (by simp))

/-- The two collecting parameters come behind the named ones, and are two. -/
theorem giveRest_giveRest (distinct : sig.parameters.Nodup) (h : bound.names = sig.namedParams)
    (rest others : Value) :
    giveRest sig.varKeywords others (giveRest sig.varArgs rest bound) =
      bound ++ (sig.varArgs.toList.map (fun name => (name, rest.var)) ++
        sig.varKeywords.toList.map fun name => (name, others.var)) := by
  obtain ⟨-, collecting, apart⟩ := List.nodup_append.mp distinct
  obtain ⟨-, -, apart'⟩ := List.nodup_append.mp collecting
  have first : ∀ name ∈ sig.varArgs.toList, name ∉ bound.names := by
    intro name hname old
    rw [h] at old
    exact apart _ old _ (List.mem_append_left _ hname) rfl
  have second : ∀ name ∈ sig.varKeywords.toList,
      name ∉ (giveRest sig.varArgs rest bound).names := by
    intro name hname old
    rw [giveRest_of_not_mem rest first, NameMap.names_append, List.mem_append, h] at old
    rcases old with old | old
    · exact apart _ old _ (List.mem_append_right _ hname) rfl
    · exact apart' name (by simpa [NameMap.names] using old) _ hname rfl
  rw [giveRest_of_not_mem others second, giveRest_of_not_mem rest first, List.append_assoc]

/-- What the named parameters are bound to, in order. -/
def namedArgs (sig : Signature) (args : Args) : NameMap Variable :=
  sig.namedParams.map fun n => (n, (sig.given? args n).getD Value.any.var)

/-- What the collecting parameters are bound to, in order. -/
def collected (sig : Signature) (args : Args) : NameMap Variable :=
  sig.varArgs.toList.map (fun n => (n, (Value.argTuple (sig.rest? args)).var)) ++
    sig.varKeywords.toList.map fun n => (n, (Value.argDict (sig.others? args)).var)

@[simp] theorem names_namedArgs : (sig.namedArgs args).names = sig.namedParams := by
  simp [namedArgs, NameMap.names, Function.comp_def]

@[simp] theorem names_collected :
    (sig.collected args).names = sig.varArgs.toList ++ sig.varKeywords.toList := by
  simp [collected, NameMap.names, Function.comp_def]

theorem settle_handedOut (distinct : sig.namedParams.Nodup) (keywords : args.keywords.names.Nodup) :
    sig.settle (sig.fillStars args (sig.handedOut args).bound) sig.namedParams
        ⟨[], (sig.handedOut args).errors⟩ =
      ⟨sig.namedArgs args,
        sig.excess args ++ args.keywords.names.flatMap (sig.misfit (sig.placed args)) ++
          (sig.namedParams.filter fun n => (sig.given? args n).isNone).map .missingParameter⟩ := by
  have params : sig.params.Nodup := (List.nodup_append.mp distinct).1
  rw [settle_of_nodup distinct fun n _ => bound_handedOut params keywords n,
    errors_handedOut params keywords]
  rfl

/-- A call reports surplus positional arguments, keyword arguments that do not fit, and parameters
that are left without a value, in this order. -/
theorem errors_mapArgs (distinct : sig.parameters.Nodup) (keywords : args.keywords.names.Nodup) :
    (sig.mapArgs args).errors =
      sig.excess args ++ args.keywords.names.flatMap (sig.misfit (sig.placed args)) ++
        (sig.namedParams.filter fun n => (sig.given? args n).isNone).map .missingParameter := by
  have named : sig.namedParams.Nodup := (List.nodup_append.mp distinct).1
  exact congrArg MappedArgs.errors (settle_handedOut named keywords)

/-- A call binds the parameters in order. -/
theorem args_mapArgs (distinct : sig.parameters.Nodup) (keywords : args.keywords.names.Nodup) :
    (sig.mapArgs args).args = sig.namedArgs args ++ sig.collected args := by
  have named : sig.namedParams.Nodup := (List.nodup_append.mp distinct).1
  have settled := congrArg MappedArgs.args (settle_handedOut named keywords)
  have others : ∀ name ∈ sig.varKeywords.toList,
      (if args.starStar.isSome then none else some (sig.handedOut args).extra) =
        sig.others? args := by
    intro name hname
    rw [Option.mem_toList] at hname
    rw [extra_handedOut keywords (by simp [hname]), others?]
  unfold mapArgs
  change giveRest sig.varKeywords _ (giveRest sig.varArgs _
    (sig.settle (sig.fillStars args (sig.handedOut args).bound) sig.namedParams
      ⟨[], (sig.handedOut args).errors⟩).args) = _
  rw [settled, giveRest_giveRest distinct names_namedArgs]
  refine congrArg₂ _ rfl (congrArg₂ _ rfl (List.map_congr_left fun name hname => ?_))
  rw [← others name hname]
  rfl

theorem names_mapArgs (distinct : sig.parameters.Nodup) (keywords : args.keywords.names.Nodup) :
    (sig.mapArgs args).args.names = sig.parameters := by
  rw [args_mapArgs distinct keywords, NameMap.names_append, names_namedArgs, names_collected]
  rfl

theorem get?_mapArgs_named (distinct : sig.parameters.Nodup)
    (keywords : args.keywords.names.Nodup) (h : name ∈ sig.namedParams) :
    (sig.mapArgs args).args.get? name = some ((sig.given? args name).getD Value.any.var) := by
  rw [args_mapArgs distinct keywords, NameMap.get?_append, namedArgs, NameMap.get?_tabulate h]
  rfl

theorem get?_mapArgs_collected (distinct : sig.parameters.Nodup)
    (keywords : args.keywords.names.Nodup) {v : Variable} (h : (name, v) ∈ sig.collected args) :
    (sig.mapArgs args).args.get? name = some v := by
  refine NameMap.get?_of_mem ?_ ?_
  · rwa [names_mapArgs distinct keywords]
  · rw [args_mapArgs distinct keywords]
    exact List.mem_append_right _ h

/-- A call fits when none of its arguments is too many and no parameter is left without a value. -/
theorem errors_mapArgs_eq_nil_iff (distinct : sig.parameters.Nodup)
    (keywords : args.keywords.names.Nodup) :
    (sig.mapArgs args).errors = [] ↔ sig.excess args = [] ∧
      (∀ name ∈ args.keywords.names, sig.misfit (sig.placed args) name = []) ∧
      ∀ name ∈ sig.namedParams, (sig.given? args name).isSome := by
  rw [errors_mapArgs distinct keywords]
  simp [Option.isSome_iff_ne_none]

end Signature

end StubInference
