import Mathlib.Tactic.Simps.Basic
import StubInference.Frame.Container
import StubInference.Frame.Monad
import StubInference.Proofs.Renaming.Value

/-!
# Containers and arguments in another heap

Containers are taken apart, and the arguments of calls bound to parameters, without a look into the
heap, so all of this commutes with renaming. What may fail fails with the same fault.

## Main definitions

* `Args.rename`, `Operands.rename`, `Signature.rename` — arguments and parameters in the other heap

## Main results

* `keyedBy_rename`, `positionalDefaults_rename`, `keywordDefaults_rename` — containers
* `Operands.arguments_rename`, `Operands.expanded_rename` — the arguments of a call
* `Signature.mapArgs_rename`, `Signature.fakeArgs_rename` — the parameters they are bound to
-/

namespace StubInference

variable {E : Renaming}

/-! ## Checks -/

section Checks

variable {α β γ δ : Type}

/-- Two checks of which the second gives the renamed result, one after the other. -/
theorem Except.bind_map_of {check : Except Fault α} {f : α → β} {next : β → Except Fault γ}
    {next' : α → Except Fault δ} {g : δ → γ} (h : ∀ a, next (f a) = (next' a).map g) :
    (check.map f >>= next) = (check >>= next').map g := by
  cases check with
  | error fault => rfl
  | ok a => exact h a

/-- The same where the first check gives the same result. -/
theorem Except.bind_of {check : Except Fault α} {next : α → Except Fault γ}
    {next' : α → Except Fault δ} {g : δ → γ} (h : ∀ a, next a = (next' a).map g) :
    (check >>= next) = (check >>= next').map g := by
  cases check with
  | error fault => rfl
  | ok a => exact h a

theorem Except.mapM_map_of {f : α → β} {check : β → Except Fault γ} {check' : α → Except Fault δ}
    {g : δ → γ} (h : ∀ a, check (f a) = (check' a).map g) (as : List α) :
    (as.map f).mapM check = (as.mapM check').map (List.map g) := by
  induction as with
  | nil => rfl
  | cons a as ih =>
    rw [List.map_cons, List.mapM_cons, List.mapM_cons, h a, ih]
    exact bind_map_of fun d => bind_map_of fun ds => rfl

end Checks

/-! ## Containers -/

theorem namedEntries_rename (entries : Option (List (Variable × Variable))) :
    namedEntries (entries.map (List.map (Prod.map (Variable.rename E) (Variable.rename E)))) =
      (namedEntries entries).map (Option.map fun names => names.mapValues (Variable.rename E)) := by
  cases entries with
  | none => rfl
  | some entries =>
    have pair (e : Variable × Variable) :
        (do pure (← (e.1.rename E).literal .str, e.2.rename E) : Except Fault (String × Variable)) =
          (do pure (← e.1.literal .str, e.2) : Except Fault (String × Variable)).map
            fun entry => (entry.1, entry.2.rename E) := by
      rw [Variable.literal_rename]
      cases e.1.literal .str <;> rfl
    simp only [namedEntries, Option.map_some]
    rw [Except.mapM_map_of pair]
    refine Except.bind_map_of fun named => ?_
    exact congrArg (fun names => Except.ok (some names)) (NameMap.mapValues_ofEntries named).symm

theorem listElements?_rename (v : Variable) :
    listElements? (v.rename E) = (listElements? v).map (List.map (Variable.rename E)) := by
  simp only [listElements?, Variable.atomic?_rename]
  cases v.atomic? with
  | none => rfl
  | some a => cases a <;> simp

theorem dictEntries?_rename (v : Variable) : dictEntries? (v.rename E) =
    (dictEntries? v).map (List.map (Prod.map (Variable.rename E) (Variable.rename E))) := by
  simp only [dictEntries?, Variable.atomic?_rename]
  cases v.atomic? with
  | none => rfl
  | some a => cases a <;> simp

theorem sequenceElements?_rename (v : Variable) :
    sequenceElements? (v.rename E) = (sequenceElements? v).map (List.map (Variable.rename E)) := by
  simp only [sequenceElements?, Variable.atomic?_rename]
  cases v.atomic? <;> simp

theorem appended_rename (v w : Variable) :
    appended (v.rename E) (w.rename E) = (appended v w).rename E := by
  simp only [appended, listElements?_rename]
  cases listElements? v <;> simp

theorem extended_rename (v w : Variable) :
    extended (v.rename E) (w.rename E) = (extended v w).rename E := by
  simp only [extended, listElements?_rename, sequenceElements?_rename]
  cases listElements? v <;> cases sequenceElements? w <;> simp

theorem tupleOf_rename (v : Variable) : tupleOf (v.rename E) = (tupleOf v).rename E := by
  simp [tupleOf, sequenceElements?_rename]

theorem combined_rename (v w : Variable) :
    combined (v.rename E) (w.rename E) = (combined v w).rename E := by
  simp only [combined, dictEntries?_rename]
  cases dictEntries? v <;> cases dictEntries? w <;> simp

theorem pairUp_rename (vs : List Variable) : pairUp (vs.map (Variable.rename E)) =
    (pairUp vs).map (Prod.map (Variable.rename E) (Variable.rename E)) := by
  induction vs using pairUp.induct with
  | case1 key value rest ih => simp [pairUp, ih]
  | case2 vs short =>
    rcases vs with _ | ⟨key, _ | ⟨value, rest⟩⟩
    · rfl
    · rfl
    · exact absurd rfl (short key value rest)

/-- The items of a literal name no object. -/
theorem map_literals_rename (items : List Literal) :
    (items.map fun item => (Value.literal item).var).map (Variable.rename E) =
      items.map fun item => (Value.literal item).var := by
  simp [Function.comp_def]

theorem keyedBy_rename (keys : Variable) (vs : List Variable) :
    keyedBy (keys.rename E) (vs.map (Variable.rename E)) =
      (keyedBy keys vs).map (Value.rename E) := by
  simp only [keyedBy, Variable.literal_rename, List.length_map]
  cases keys.literal .any with
  | error fault => rfl
  | ok l =>
    cases l with
    | tuple items =>
      have zipped : (items.map fun item => (Value.literal item).var).zip (vs.map (Variable.rename E)) =
          ((items.map fun item => (Value.literal item).var).zip vs).map
            (Prod.map (Variable.rename E) (Variable.rename E)) := by
        rw [← List.zip_map, map_literals_rename]
      simp only [bind, Except.bind]
      rw [zipped]
      split
      · simp [pure, Except.pure, Except.map]
      · rfl
    | _ => rfl

theorem positionalDefaults_rename (v : Variable) : positionalDefaults (v.rename E) =
    (positionalDefaults v).map (List.map (Variable.rename E)) := by
  unfold positionalDefaults
  rw [Variable.atomic_rename]
  refine Except.bind_map_of fun a => ?_
  cases a with
  | tuple elements => cases elements <;> simp [pure, Except.pure, Except.map]
  | literal l =>
    cases l with
    | tuple items =>
      exact congrArg Except.ok (map_literals_rename items).symm
    | _ => rfl
  | _ => rfl

theorem keywordDefaults_rename (v : Variable) : keywordDefaults (v.rename E) =
    (keywordDefaults v).map fun names => names.mapValues (Variable.rename E) := by
  unfold keywordDefaults
  rw [Variable.atomic_rename]
  refine Except.bind_map_of fun a => ?_
  cases a with
  | dict entries =>
    simp only [Value.rename, Variable.renameEntries_eq]
    rw [namedEntries_rename]
    refine Except.bind_map_of fun names => ?_
    cases names <;> rfl
  | _ => rfl

/-! ## Arguments -/

/-- The tables that a frame shows, in the other heap. -/
@[simps] def Surroundings.rename (E : Renaming) (around : Surroundings) : Surroundings :=
  ⟨around.name, E.scope around.globals, around.enclosing.map E.scope⟩

/-- Arguments with every object in them renamed. -/
@[simps] def Args.rename (E : Renaming) (args : Args) : Args where
  positional := args.positional.map (Variable.rename E)
  keywords := args.keywords.mapValues (Variable.rename E)
  star := args.star.map (Variable.rename E)
  starStar := args.starStar.map (Variable.rename E)
  frame := args.frame.map (Surroundings.rename E)

/-- The operands of a frame in the other heap. -/
@[simps] def Operands.rename (E : Renaming) (operands : Operands) : Operands :=
  ⟨operands.frame.rename E, operands.names⟩

@[simp] theorem Args.rename_empty : Args.empty.rename E = Args.empty := rfl

theorem Args.withReceiver_rename (args : Args) (receiver : Option Value) :
    (args.rename E).withReceiver (receiver.map (Value.rename E)) =
      (args.withReceiver receiver).rename E := by
  cases receiver <;> rfl

theorem unpackPositional_rename (v : Variable) : unpackPositional (v.rename E) =
    (unpackPositional v).map (Option.map (List.map (Variable.rename E))) := by
  unfold unpackPositional
  rw [Variable.atomic_rename]
  refine Except.bind_map_of fun a => ?_
  cases a with
  | tuple elements | list elements | argTuple elements => simp [pure, Except.pure, Except.map]
  | literal l =>
    cases l with
    | tuple items =>
      exact congrArg (fun vs => Except.ok (some vs)) (map_literals_rename items).symm
    | _ => rfl
  | _ => rfl

theorem unpackKeywords_rename (v : Variable) : unpackKeywords (v.rename E) =
    (unpackKeywords v).map (Option.map fun names => names.mapValues (Variable.rename E)) := by
  unfold unpackKeywords
  rw [Variable.atomic_rename]
  refine Except.bind_map_of fun a => ?_
  cases a with
  | argDict entries => simp [pure, Except.pure, Except.map]
  | dict entries => simpa using namedEntries_rename entries
  | _ => rfl

theorem Args.expandStar_rename (args : Args) (v : Variable) :
    (args.rename E).expandStar (v.rename E) = (args.expandStar v).map (Args.rename E) := by
  unfold Args.expandStar
  rw [unpackPositional_rename]
  refine Except.bind_map_of fun elements => ?_
  cases elements <;> rfl

theorem Args.expandStarStar_rename (args : Args) (v : Option Variable) :
    (args.rename E).expandStarStar (v.map (Variable.rename E)) =
      (args.expandStarStar v).map (Args.rename E) := by
  cases v with
  | none => rfl
  | some v =>
    simp only [Args.expandStarStar, Option.map_some]
    rw [unpackKeywords_rename]
    refine Except.bind_map_of fun entries => ?_
    cases entries <;> rfl

namespace Operands

variable (operands : Operands)

theorem expectNames_rename (names : List String) :
    (operands.rename E).expectNames names = (operands.expectNames names).map (rename E) := by
  simp only [expectNames, rename]
  cases operands.names <;> rfl

theorem arguments_rename (vs : List Variable) :
    (operands.rename E).arguments (vs.map (Variable.rename E)) =
      (operands.arguments vs).map (Args.rename E) := by
  simp only [arguments, rename, List.length_map]
  split
  · simp [Except.map, Args.rename, Args.empty, NameMap.mapValues_ofEntries, NameMap.mapValues_zip,
      List.map_take, List.map_drop]
  · rfl

theorem expanded_rename (star : Variable) (starStar : Option Variable) :
    (operands.rename E).expanded (star.rename E) (starStar.map (Variable.rename E)) =
      (operands.expanded star starStar).map (Args.rename E) := by
  simp only [expanded, rename]
  cases operands.names with
  | some pending => rfl
  | none =>
    have start : { Args.empty with frame := some (operands.frame.rename E) } =
        ({ Args.empty with frame := some operands.frame } : Args).rename E := rfl
    simp only [start, Args.expandStar_rename]
    exact Except.bind_map_of fun args => args.expandStarStar_rename starStar

end Operands

/-! ## Parameters -/

/-- A signature with every object in its defaults renamed. -/
@[simps] def Signature.rename (E : Renaming) (sig : Signature) : Signature :=
  { sig with defaults := sig.defaults.mapValues (Variable.rename E) }

/-- Bound parameters with every object in them renamed. -/
@[simps] def MappedArgs.rename (E : Renaming) (mapped : MappedArgs) : MappedArgs :=
  { mapped with args := mapped.args.mapValues (Variable.rename E) }

namespace Signature

/-- Arguments under distribution with every object in them renamed. -/
@[simps] def Distribution.rename (E : Renaming) (d : Distribution) : Distribution :=
  ⟨d.bound.mapValues (Variable.rename E), d.extra.mapValues (Variable.rename E), d.errors⟩

variable (sig : Signature)

@[simp] theorem namedParams_rename : (sig.rename E).namedParams = sig.namedParams := rfl

theorem rename_ofCode (code : Code) (defaults : List Variable) (kwDefaults : NameMap Variable) :
    (ofCode code defaults kwDefaults).rename E = ofCode code (defaults.map (Variable.rename E))
      (kwDefaults.mapValues (Variable.rename E)) := by
  simp only [ofCode, rename, NameMap.mapValues_ofEntries, List.length_map, ← NameMap.mapValues_zip]
  simp only [NameMap.mapValues, List.map_append]

theorem giveKeyword_rename (d : Distribution) (argument : String × Variable) :
    (sig.rename E).giveKeyword (d.rename E) (argument.1, argument.2.rename E) =
      (sig.giveKeyword d argument).rename E := by
  have takes : (sig.rename E).takesKeyword argument.1 = sig.takesKeyword argument.1 := rfl
  have collects : (sig.rename E).varKeywords = sig.varKeywords := rfl
  simp only [giveKeyword, takes, collects, Distribution.rename, NameMap.has_mapValues]
  cases sig.takesKeyword argument.1 <;> cases d.bound.has argument.1 <;>
    cases sig.varKeywords.isSome <;> simp [NameMap.mapValues_insert]

theorem giveKeywords_rename (d : Distribution) (keywords : NameMap Variable) :
    (keywords.mapValues (Variable.rename E)).foldl (sig.rename E).giveKeyword (d.rename E) =
      (keywords.foldl sig.giveKeyword d).rename E := by
  induction keywords generalizing d with
  | nil => rfl
  | cons argument rest ih =>
    refine .trans ?_ (ih (sig.giveKeyword d argument))
    exact congrArg (List.foldl _ · _) (giveKeyword_rename sig d argument)

theorem fillUnknown_rename (bound : NameMap Variable) (names : List String) :
    fillUnknown (bound.mapValues (Variable.rename E)) names =
      (fillUnknown bound names).mapValues (Variable.rename E) := by
  simp only [fillUnknown]
  induction names generalizing bound with
  | nil => rfl
  | cons name rest ih =>
    rw [List.foldl_cons, List.foldl_cons, ← ih]
    congr 1
    simp only [NameMap.has_mapValues]
    split
    · rfl
    · exact (NameMap.mapValues_insert Value.any.var).symm

theorem fillStars_rename (args : Args) (bound : NameMap Variable) :
    (sig.rename E).fillStars (args.rename E) (bound.mapValues (Variable.rename E)) =
      (sig.fillStars args bound).mapValues (Variable.rename E) := by
  simp only [fillStars, Args.rename, rename, Option.isSome_map]
  repeat' split
  all_goals simp only [fillUnknown_rename]

theorem settle_rename (bound : NameMap Variable) (names : List String) (mapped : MappedArgs) :
    (sig.rename E).settle (bound.mapValues (Variable.rename E)) names (mapped.rename E) =
      (sig.settle bound names mapped).rename E := by
  induction names generalizing bound mapped with
  | nil => rfl
  | cons name rest ih =>
    have give (mapped : MappedArgs) (v : Variable) :
        ({ mapped.rename E with
            args := (mapped.rename E).args.insert name (v.rename E) } : MappedArgs) =
          ({ mapped with args := mapped.args.insert name v } : MappedArgs).rename E := by
      simp [MappedArgs.rename, NameMap.mapValues_insert]
    rw [settle, settle]
    simp only [NameMap.get?_mapValues, show (sig.rename E).defaults =
      sig.defaults.mapValues (Variable.rename E) from rfl]
    cases bound.get? name with
    | some v => simp only [Option.map_some, give, ← NameMap.mapValues_erase, ih]
    | none =>
      cases sig.defaults.get? name with
      | some v => simp only [Option.map_some, Option.map_none, give, ih]
      | none =>
        refine .trans ?_ (ih _ _)
        simp [MappedArgs.rename, NameMap.mapValues_insert]

theorem giveRest_rename (name : Option String) (a : Value) (bound : NameMap Variable) :
    giveRest name (a.rename E) (bound.mapValues (Variable.rename E)) =
      (giveRest name a bound).mapValues (Variable.rename E) := by
  cases name with
  | none => rfl
  | some name => exact (NameMap.mapValues_insert a.var).symm

/-- What `*args` and `**kwargs` collect. -/
theorem collected_rename (args : Args) (extra : NameMap Variable) (count : Nat) :
    (Value.argTuple (if (args.rename E).star.isSome then none
        else some ((args.rename E).positional.drop count)) =
      (Value.argTuple (if args.star.isSome then none
        else some (args.positional.drop count))).rename E) ∧
    Value.argDict (if (args.rename E).starStar.isSome then none
        else some (extra.mapValues (Variable.rename E))) =
      (Value.argDict (if args.starStar.isSome then none else some extra)).rename E := by
  simp only [Args.rename, Option.isSome_map]
  cases args.star <;> cases args.starStar <;> simp

theorem mapArgs_rename (args : Args) :
    (sig.rename E).mapArgs (args.rename E) = (sig.mapArgs args).rename E := by
  have start : (⟨NameMap.ofEntries (sig.params.zip (args.rename E).positional), [],
      (sig.rename E).excess (args.rename E)⟩ : Distribution) =
      Distribution.rename E ⟨NameMap.ofEntries (sig.params.zip args.positional), [],
        sig.excess args⟩ := by
    simp only [Distribution.rename, NameMap.mapValues_ofEntries, NameMap.mapValues_zip]
    simp [Args.rename, excess, rename, NameMap.mapValues]
  have given := giveKeywords_rename (E := E) sig
    ⟨NameMap.ofEntries (sig.params.zip args.positional), [], sig.excess args⟩ args.keywords
  rw [← start] at given
  simp only [mapArgs]
  generalize args.keywords.foldl sig.giveKeyword _ = d at given ⊢
  have bound : (sig.rename E).settle ((sig.rename E).fillStars (args.rename E) (d.rename E).bound)
      sig.namedParams ⟨[], d.errors⟩ =
      (sig.settle (sig.fillStars args d.bound) sig.namedParams ⟨[], d.errors⟩).rename E :=
    (congrArg (settle _ · _ _) (fillStars_rename sig args d.bound)).trans 
      (settle_rename sig _ _ ⟨[], d.errors⟩)
  obtain ⟨rest, others⟩ := collected_rename (E := E) args d.extra sig.params.length
  simp only [rename_params, Args.rename_keywords, namedParams_rename, given]
  rw [Distribution.rename_errors, bound, Distribution.rename_extra, rest, others]
  simp only [MappedArgs.rename, rename_varArgs, rename_varKeywords, giveRest_rename]

theorem fakeArgs_rename (receiver : Option Value) :
    (sig.rename E).fakeArgs (receiver.map (Value.rename E)) =
      (sig.fakeArgs receiver).mapValues (Variable.rename E) := by
  have values : ((receiver.map (Value.rename E)).toList ++
      List.replicate sig.namedParams.length Value.any).map Value.var =
      ((receiver.toList ++ List.replicate sig.namedParams.length Value.any).map Value.var).map
        (Variable.rename E) := by
    cases receiver <;> simp
  have named : (sig.rename E).namedParams = sig.namedParams := rfl
  simp only [fakeArgs]
  rw [← giveRest_rename, ← giveRest_rename, NameMap.mapValues_ofEntries, NameMap.mapValues_zip,
    ← values, named]
  rfl

end Signature

end StubInference
