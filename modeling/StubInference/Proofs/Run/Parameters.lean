import StubInference.Call.Signature
import StubInference.Proofs.Value.Tables

/-!
# Parameters

A call binds every named parameter, whatever it passes, and what it binds comes from its arguments and
from the defaults, but for what collects the rest and what is not known.

## Main definitions

* `Signature.Bindable` — a property of variables that parameters have where arguments have it

## Main results

* `Signature.all_mapArgs`, `Signature.all_fakeArgs` — parameters have what arguments have
* `Signature.has_mapArgs` — every named parameter is bound
-/

namespace StubInference

namespace Signature

variable {sig : Signature} {bound : NameMap Variable} {args : Args} {P : Variable → Prop}

/-! ## What parameters are bound to -/

/-- A property that unknown variables have, and collected arguments where the arguments have it. -/
structure Bindable (P : Variable → Prop) : Prop where
  any : P Value.any.var
  argTuple : ∀ elements, (∀ vs, elements = some vs → ∀ v ∈ vs, P v) →
    P (Value.argTuple elements).var
  argDict : ∀ entries, (∀ es, entries = some es → NameMap.All P es) → P (Value.argDict entries).var

theorem all_fillUnknown (h : Bindable P) (hbound : bound.All P) (names : List String) :
    (fillUnknown bound names).All P := by
  refine List.foldlRecOn names _ hbound fun known hknown name _ => ?_
  split
  · exact hknown
  · exact hknown.insert h.any

theorem all_fillStars (h : Bindable P) (hbound : bound.All P) (args : Args) :
    (sig.fillStars args bound).All P := by
  unfold fillStars
  split <;> split
  · exact all_fillUnknown h (all_fillUnknown h hbound _) _
  · exact all_fillUnknown h hbound _
  · exact all_fillUnknown h hbound _
  · exact hbound

theorem all_settle (h : Bindable P) (defaults : sig.defaults.All P) (names : List String)
    {mapped : MappedArgs} (hbound : bound.All P) (hmapped : mapped.args.All P) :
    (sig.settle bound names mapped).args.All P := by
  induction names generalizing bound mapped with
  | nil => exact hmapped
  | cons name rest ih =>
    rw [settle]
    split
    case h_1 var _ hvar => exact ih hbound.erase (hmapped.insert (hbound.get? hvar))
    case h_2 default _ hdefault => exact ih hbound (hmapped.insert (defaults.get? hdefault))
    case h_3 => exact ih hbound (hmapped.insert h.any)

theorem all_giveRest {rest : Option String} {a : Value} (ha : P a.var) (hbound : bound.All P) :
    (giveRest rest a bound).All P := by
  cases rest with
  | none => exact hbound
  | some name => exact hbound.insert ha

/-- Handing out a keyword argument binds what it carries. -/
theorem all_giveKeyword {d : Distribution} (hd : d.bound.All P ∧ d.extra.All P)
    {argument : String × Variable} (hargument : P argument.2) :
    (sig.giveKeyword d argument).bound.All P ∧ (sig.giveKeyword d argument).extra.All P := by
  unfold giveKeyword
  dsimp only
  split
  · split
    · exact hd
    · exact ⟨hd.1.insert hargument, hd.2⟩
  · split
    · exact ⟨hd.1, hd.2.insert hargument⟩
    · exact hd

/-- What a call binds has the property that its arguments and the defaults have. -/
theorem all_mapArgs (h : Bindable P) (defaults : sig.defaults.All P)
    (positional : ∀ v ∈ args.positional, P v) (keywords : args.keywords.All P) :
    (sig.mapArgs args).args.All P := by
  let start : Distribution :=
    ⟨NameMap.ofEntries (sig.params.zip args.positional), [], sig.excess args⟩
  have placed : start.bound.All P :=
    .ofEntries fun entry hentry => positional _ (List.of_mem_zip hentry).2
  have given : (args.keywords.foldl sig.giveKeyword start).bound.All P ∧
      (args.keywords.foldl sig.giveKeyword start).extra.All P :=
    List.foldlRecOn (motive := fun d : Distribution => d.bound.All P ∧ d.extra.All P)
      args.keywords _ ⟨placed, .nil⟩ fun d hd argument hargument =>
        all_giveKeyword hd (keywords argument hargument)
  unfold mapArgs
  refine all_giveRest (h.argDict _ fun es hes => ?_) (all_giveRest (h.argTuple _ fun vs hvs => ?_)
    (all_settle h defaults _ (all_fillStars h given.1 args) .nil))
  · split at hes
    · cases hes
    · obtain rfl := Option.some.inj hes
      exact given.2
  · split at hvs
    · cases hvs
    · obtain rfl := Option.some.inj hvs
      exact fun v hv => positional v (List.mem_of_mem_drop hv)

/-- Unknown arguments have the property where the receiver has it. -/
theorem all_fakeArgs (h : Bindable P) {receiver : Option Value}
    (hreceiver : ∀ a, receiver = some a → P a.var) : (sig.fakeArgs receiver).All P := by
  unfold fakeArgs
  refine all_giveRest (h.argDict _ nofun) (all_giveRest (h.argTuple _ nofun)
    (.ofEntries fun entry hentry => ?_))
  obtain ⟨a, ha, same⟩ := List.mem_map.mp (List.of_mem_zip hentry).2
  rw [← same]
  rcases List.mem_append.mp ha with ha | ha
  · exact hreceiver a (Option.mem_toList.mp ha)
  · rw [List.eq_of_mem_replicate ha]
    exact h.any

theorem all_ofCode {code : Code} {defaults : List Variable} {kwDefaults : NameMap Variable}
    (hdefaults : ∀ v ∈ defaults, P v) (hkw : kwDefaults.All P) :
    (ofCode code defaults kwDefaults).defaults.All P := by
  refine .ofEntries fun entry hentry => ?_
  rcases List.mem_append.mp hentry with hentry | hentry
  · exact hdefaults _ (List.of_mem_zip hentry).2
  · exact hkw entry hentry

/-! ## Which parameters are bound -/

theorem has_insert {name other : String} {v : Variable} (h : name = other ∨ bound.has name = true) :
    (bound.insert other v).has name = true := by
  by_cases same : other = name
  · rw [NameMap.has, same, NameMap.get?_insert_self]
    rfl
  · rw [NameMap.has, NameMap.get?_insert_of_ne _ _ same]
    exact h.resolve_left (Ne.symm same)

theorem has_giveRest {rest : Option String} {name : String} (a : Value)
    (h : bound.has name = true) : (giveRest rest a bound).has name = true := by
  cases rest with
  | none => exact h
  | some other => exact has_insert (.inr h)

/-- A parameter is bound in its turn, and stays bound. -/
theorem has_settle {names : List String} {name : String} {mapped : MappedArgs}
    (h : name ∈ names ∨ mapped.args.has name = true) :
    (sig.settle bound names mapped).args.has name = true := by
  induction names generalizing bound mapped with
  | nil => exact h.resolve_left List.not_mem_nil
  | cons other rest ih =>
    have given (v : Variable) : name ∈ rest ∨ (mapped.args.insert other v).has name = true := by
      rcases h with h | h
      · exact (List.mem_cons.mp h).elim (fun e => .inr (has_insert (.inl e))) .inl
      · exact .inr (has_insert (.inr h))
    rw [settle]
    split <;> exact ih (given _)

/-- Every named parameter is bound, whatever a call passes. -/
theorem has_mapArgs (sig : Signature) (args : Args) {name : String} (h : name ∈ sig.namedParams) :
    (sig.mapArgs args).args.has name = true :=
  has_giveRest _ (has_giveRest _ (has_settle (.inl h)))

end Signature

end StubInference
