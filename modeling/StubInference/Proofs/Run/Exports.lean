import StubInference.Proofs.Frame.Depth
import StubInference.Proofs.Run.Stores
import StubInference.Proofs.Stub.Assembly

/-!
# What a stub declares

A stub declares each name that its module ends with once, unless the name is bound to what every
module starts with. So the definitions have distinct names and assembly never fails. A name is
declared as a function or a class only where everything that the paths through the module bring to
a return under it is that one definition. A path that leaves the name unbound brings nothing, so it
does not count.

## Main definitions

* `Value.Defines` — a value is a function or class of the analysed code, of a given name
* `Stub.Module.Exports` — the names of a stub are those that a module ends with
* `Unbound` — a path leaves a name unbound at a return
* `AlwaysBound` — a name is bound to one value on every path to a return

## Main results

* `Machine.inferStub_exports` — stubs are assembled, export each name once, and what they declare as
  a definition is always bound to it just where no path leaves the name unbound
-/

namespace StubInference

open Step

/-! ## Definitions -/

/-- A value is a function or class of the analysed code, of the given name. -/
def Value.Defines (heap : Heap) (name : String) : Value → Prop
  | .function id => ∃ function, heap.functionAt id = .interpreted function ∧ function.name = name
  | .classObject cls => heap.isBuilt cls = true ∧ (heap.classAt cls).name = name
  | _ => False

namespace Value.Defines

variable {heap heap' : Heap} {name : String} {value a b : Value}

theorem mono (h : value.Defines heap name) (grows : heap.Grows heap') :
    value.Defines heap' name := by
  cases value with
  | function id =>
    obtain ⟨function, known, hname⟩ := h
    exact ⟨function, (grows.functionAt (Heap.lt_of_functionAt known)).trans known, hname⟩
  | classObject cls =>
    obtain ⟨built, hname⟩ := h
    obtain ⟨members, same, -⟩ := grows.classAt (Heap.lt_of_isBuilt built)
    constructor
    · rwa [Heap.isBuilt, same]
    · rwa [same]
  | _ => exact h.elim

/-- A definition is the same as itself only. -/
theorem eq_of_same (h : value.Defines heap name) (same : value.same a = true) : a = value := by
  cases value with
  | function id | classObject cls =>
    cases a <;> simp [Value.same] at same
    rw [same]
  | _ => exact h.elim

/-- Values that are joined into a definition are that definition. -/
theorem eq_of_join (h : value.Defines heap name) {values : List Value}
    (joined : Value.join values = value) : ∀ b ∈ values.flatMap Value.members, b = value := by
  -- a join of none is anything and one of several is a union, and neither defines a name
  have single : addNew [] (values.flatMap Value.members) = [value] := by
    unfold Value.join at joined
    generalize addNew [] (values.flatMap Value.members) = known at joined
    match known, joined with
    | [], joined =>
      subst joined
      exact h.elim
    | [_], joined => exact congrArg (fun b => [b]) joined
    | _ :: _ :: _, joined =>
      subst joined
      exact h.elim
  intro b hb
  obtain ⟨c, hc, same⟩ := exists_mem_addNew_or [] hb
  rw [single, List.mem_singleton] at hc
  subst hc
  exact same.elim Eq.symm h.eq_of_same

/-- A value that is the same as one whose members are all a definition has no other members. -/
theorem members_of_same (h : value.Defines heap name) (members : ∀ c ∈ a.members, c = value)
    (same : a = b ∨ a.same b = true) : ∀ c ∈ b.members, c = value := by
  rcases same with rfl | same
  · exact members
  cases a with
  | union as =>
    cases b with
    | union bs =>
      intro c hc
      obtain ⟨n, hn, rfl⟩ := List.mem_iff_getElem.mp hc
      obtain ⟨length, each⟩ := List.forall₂_iff_get.mp (Value.sameAll_iff.mp same)
      have here : as.get ⟨n, length ▸ hn⟩ = value := members _ (List.get_mem ..)
      exact h.eq_of_same (here ▸ each n (length ▸ hn) hn)
    | _ => cases same
  | _ =>
    obtain rfl := members _ (List.mem_singleton_self _)
    obtain rfl := h.eq_of_same same
    exact members

end Value.Defines

/-! ## Declarations -/

section Declarations

variable {ev : Evaluator} {ctx ctx' : Context} {name : String} {v : Variable}
  {definition : Stub.Definition}

/-- A class is declared under its own name. -/
theorem name_of_declareClass {cls : ClassId} {declared : Stub.Class}
    (h : declareClass ev cls ctx = (.ok declared, ctx')) :
    declared.name = (ctx.heap.classAt cls).name := by
  rw [declareClass] at h
  obtain ⟨_, _, ⟨⟩, h⟩ := Step.bind_eq_ok.mp h
  obtain ⟨receiver, t, -, h⟩ := Step.bind_eq_ok.mp h
  obtain ⟨init, u, -, h⟩ := Step.bind_eq_ok.mp h
  obtain ⟨body, w, -, h⟩ := Step.bind_eq_ok.mp h
  obtain ⟨_, _, ⟨⟩, h⟩ := Step.bind_eq_ok.mp h
  cases h
  rfl

/-- A value that is declared defines the name of its declaration. -/
theorem defines_of_declareWith? {value : Value}
    (h : declareWith? ev value ctx = (.ok (some definition), ctx')) :
    value.Defines ctx.heap definition.name := by
  unfold declareWith? at h
  obtain ⟨_, _, ⟨⟩, h⟩ := Step.bind_eq_ok.mp h
  cases value with
  | function id =>
    cases known : ctx.heap.functionAt id with
    | interpreted function =>
      simp only [Heap.interpreted?, known, FunctionInfo.interpreted?, Option.map_some] at h
      obtain ⟨declared, t, hdeclared, h⟩ := Step.bind_eq_ok.mp h
      obtain ⟨frames, _, -, hdeclared⟩ := Step.bind_eq_ok.mp hdeclared
      obtain ⟨_, _, ⟨⟩, hdeclared⟩ := Step.bind_eq_ok.mp hdeclared
      cases hdeclared
      cases h
      exact ⟨function, known, rfl⟩
    | declared function =>
      simp only [Heap.interpreted?, known, FunctionInfo.interpreted?, Option.map_none] at h
      cases h
  | classObject cls =>
    simp only [Heap.interpreted?] at h
    split at h
    case isTrue built =>
      obtain ⟨declared, t, hdeclared, h⟩ := Step.bind_eq_ok.mp h
      cases h
      exact ⟨built, (name_of_declareClass hdeclared).symm⟩
    case isFalse => cases h
  | _ => cases h

/-- What a stub declares under a name: a definition of the name, which is no constant only where the
name is bound to nothing but that definition. -/
structure Shows (heap : Heap) (entry : String × Variable) (definition : Stub.Definition) : Prop where
  name : definition.name = entry.1
  single : definition.constant? = none →
    entry.2.isAtomic = true ∧ entry.2.joined.Defines heap entry.1

theorem shows_of_definitionOf (h : Machine.definitionOf ev name v ctx = (.ok definition, ctx')) :
    Shows ctx.heap (name, v) definition := by
  unfold Machine.definitionOf at h
  dsimp only at h
  split at h
  case isFalse =>
    cases h
    exact ⟨rfl, nofun⟩
  case isTrue atomic =>
    obtain ⟨declared, t, hdeclared, h⟩ := Step.bind_eq_ok.mp h
    cases same : declared.filter (·.name = name) with
    | none =>
      rw [same] at h
      cases h
      exact ⟨rfl, nofun⟩
    | some other =>
      rw [same] at h
      cases h
      obtain ⟨rfl, hname⟩ := Option.filter_eq_some_iff.mp same
      have carries : definition.name = name := of_decide_eq_true hname
      exact ⟨carries, fun _ => ⟨atomic, carries ▸ defines_of_declareWith? hdeclared⟩⟩

/-- Entries are declared one after the other, while the state grows. -/
theorem shows_of_mapM (hev : ∀ E, ev.Mirrors E) {entries : NameMap Variable}
    {definitions : List Stub.Definition}
    (h : entries.mapM (fun entry => Machine.definitionOf ev entry.1 entry.2) ctx =
      (.ok definitions, ctx')) :
    ctx.heap.Grows ctx'.heap ∧ List.Forall₂ (Shows ctx'.heap) entries definitions := by
  induction entries generalizing ctx definitions with
  | nil =>
    cases h
    exact ⟨.refl _, .nil⟩
  | cons entry rest ih =>
    rw [List.mapM_cons] at h
    obtain ⟨definition, t, hdefinition, h⟩ := Step.bind_eq_ok.mp h
    obtain ⟨others, u, hothers, h⟩ := Step.bind_eq_ok.mp h
    cases h
    have grows : ctx.Grows (Machine.definitionOf ev entry.1 entry.2 ctx).2 :=
      (definitionOf_mirrors (hev (.past .empty)) entry.1 entry.2).grows
    rw [hdefinition] at grows
    obtain ⟨later, shows⟩ := ih hothers
    have here := shows_of_definitionOf hdefinition
    have all := grows.heap.trans later
    exact ⟨all, .cons ⟨here.name, fun single => (here.single single).imp_right (·.mono all)⟩ shows⟩

end Declarations

/-! ## Stubs -/

/-- A name is bound to something else than what every module starts with. -/
def Changed (name : String) (v : Variable) : Prop :=
  (Builtins.moduleGlobals.get? name).any (· == v.joined) = false

instance (name : String) (v : Variable) : Decidable (Changed name v) :=
  inferInstanceAs (Decidable (_ = false))

/-- The names of the functions and classes of a stub. -/
def Stub.Module.defined (unit : Stub.Module) : List String :=
  unit.functions.map (·.name) ++ unit.classes.map (·.name)

/-- A stub exports the names that its module ends with, unless they are bound to what every module
starts with: each name once, and the names of each kind in their order. -/
structure Stub.Module.Exports (unit : Stub.Module) (locals : NameMap Variable) : Prop where
  distinct : unit.names.Nodup
  mem_names : ∀ name, name ∈ unit.names ↔ ∃ v, locals.get? name = some v ∧ Changed name v
  constants : (unit.constants.map (·.name)).Sublist locals.names
  functions : (unit.functions.map (·.name)).Sublist locals.names
  classes : (unit.classes.map Stub.Class.name).Sublist locals.names

/-- A path through a module leaves a name unbound at a return: no instruction there binds it, or the
last one that does so deletes it. -/
inductive Unbound (start : Frame) (visits : List Visit) (name : String) : Prop
  | initial {block : Block} (missing : start.initialLocals.get? name = none)
      (found : start.code.blocks[0]? = some block)
      (returns : Place.Returns start.code.blocks (·.Leaves name) ⟨0, block⟩)
  | deleted {visit : Visit} (visited : visit ∈ visits) (deletes : visit.binding? name = some none)
      (returns : visit.behind.Returns start.code.blocks (·.Leaves name))

/-- A name is bound to one value on every path through a module to a return. -/
structure AlwaysBound (start : Frame) (visits : List Visit) (name : String) (value : Value) :
    Prop where
  bound : ¬ Unbound start visits name
  only : ∀ v, Brought start visits name v → ∀ a ∈ v.values, ∀ b ∈ a.members, b = value

section Stubs

variable {heap : Heap} {locals : NameMap Variable} {definitions : List Stub.Definition}

/-- The entries that are declared. -/
def changedEntries (locals : NameMap Variable) : NameMap Variable :=
  locals.filter fun (name, var) => !(Builtins.moduleGlobals.get? name).any (· == var.joined)

theorem mem_changedEntries (distinct : locals.names.Nodup) {name : String} {v : Variable} :
    (name, v) ∈ changedEntries locals ↔ locals.get? name = some v ∧ Changed name v := by
  rw [changedEntries, List.mem_filter, Bool.not_eq_true']
  exact and_congr_left' ⟨NameMap.get?_of_mem distinct, NameMap.mem_of_get?⟩

theorem names_of_shows {entries : NameMap Variable}
    (shows : List.Forall₂ (Shows heap) entries definitions) :
    definitions.map Stub.Definition.name = entries.names := by
  induction shows with
  | nil => rfl
  | cons here _ ih => exact congrArg₂ List.cons here.name ih

/-- Gathered declarations export what they declare. -/
theorem exports_gather (distinct : locals.names.Nodup)
    (shows : List.Forall₂ (Shows heap) (changedEntries locals) definitions) (unit : String) :
    (Stub.gather unit definitions).Exports locals := by
  have names := names_of_shows shows
  have perm := Stub.names_gather unit definitions
  rw [names] at perm
  have within : (changedEntries locals).names.Sublist locals.names := List.filter_sublist.map _
  have ordered {α : Type} {select : Stub.Definition → Option α} {nameOf : α → String}
      (named : ∀ definition declared, select definition = some declared →
        nameOf declared = definition.name) :
      ((definitions.filterMap select).map nameOf).Sublist locals.names :=
    (names ▸ Stub.sublist_gather named definitions).trans within
  refine ⟨perm.nodup_iff.mpr (distinct.sublist within), fun name => ?_,
    ordered fun _ _ => Stub.Definition.name_of_constant?,
    ordered fun _ _ => Stub.Definition.name_of_function?,
    ordered fun _ _ => Stub.Definition.name_of_class?⟩
  rw [perm.mem_iff]
  constructor
  · intro h
    obtain ⟨⟨_, v⟩, hentry, rfl⟩ := List.mem_map.mp h
    exact ⟨v, (mem_changedEntries distinct).mp hentry⟩
  · rintro ⟨v, h⟩
    exact List.mem_map.mpr ⟨(name, v), (mem_changedEntries distinct).mpr h, rfl⟩

/-- What is gathered as a function or a class was declared as one. -/
theorem exists_of_mem_defined {unit name : String} (h : name ∈ (Stub.gather unit definitions).defined) :
    ∃ definition ∈ definitions, definition.constant? = none ∧ definition.name = name := by
  rcases List.mem_append.mp h with function | cls
  · obtain ⟨declared, hdeclared, rfl⟩ := List.mem_map.mp function
    obtain ⟨definition, hdefinition, select⟩ := List.mem_filterMap.mp hdeclared
    refine ⟨definition, hdefinition, ?_, (Stub.Definition.name_of_function? select).symm⟩
    cases definition <;> cases select
    rfl
  · obtain ⟨declared, hdeclared, rfl⟩ := List.mem_map.mp cls
    obtain ⟨definition, hdefinition, select⟩ := List.mem_filterMap.mp hdeclared
    refine ⟨definition, hdefinition, ?_, (Stub.Definition.name_of_class? select).symm⟩
    cases definition <;> cases select
    rfl

/-- A name that is declared as a function or a class is bound to nothing else. -/
theorem single_of_mem_defined (distinct : locals.names.Nodup)
    (shows : List.Forall₂ (Shows heap) (changedEntries locals) definitions) {unit name : String}
    (h : name ∈ (Stub.gather unit definitions).defined) :
    ∃ v, locals.get? name = some v ∧ v.isAtomic = true ∧ v.joined.Defines heap name := by
  obtain ⟨definition, hdefinition, single, rfl⟩ := exists_of_mem_defined h
  obtain ⟨n, hn, rfl⟩ := List.mem_iff_getElem.mp hdefinition
  obtain ⟨length, each⟩ := List.forall₂_iff_get.mp shows
  have here := each n (length ▸ hn) hn
  have known := List.get_mem (changedEntries locals) ⟨n, length ▸ hn⟩
  generalize (changedEntries locals).get ⟨n, length ▸ hn⟩ = entry at here known
  obtain ⟨name, v⟩ := entry
  have hname : definitions[n].name = name := here.name
  rw [hname]
  exact ⟨v, ((mem_changedEntries distinct).mp known).1, here.single single⟩

/-- A module ends with each name bound once. -/
theorem Frame.VisitedAs.distinct {start done : Frame} {ev : Evaluator} {ctx ctx' : Context}
    {visits : List Visit} (visited : start.VisitedAs ev ctx visits done ctx')
    (opening : start.Opening) : done.finalLocals.names.Nodup := by
  obtain ⟨last, course, rfl⟩ := visited
  exact (course.tidy opening.tidy).final

/-- Where a module ends with one definition under a name, its stores bring nothing else to a
return. -/
theorem Frame.Opening.only_of_defines {start done : Frame} {ev : Evaluator} {ctx ctx' : Context}
    {visits : List Visit} (opening : start.Opening)
    (visited : start.VisitedAs ev ctx visits done ctx') {name : String} {v : Variable}
    (bound : done.finalLocals.get? name = some v) (atomic : v.isAtomic = true)
    (defines : v.joined.Defines heap name) :
    ∀ w, Brought start visits name w → ∀ a ∈ w.values, ∀ b ∈ a.members, b = v.joined := by
  obtain ⟨last, course, rfl⟩ := visited
  intro w brought a ha
  obtain ⟨u, hu, includes⟩ := opening.holding_of_brought course brought
  obtain rfl := Option.some.inj (hu.symm.trans bound)
  -- what the stores bring is among what the name ends with, which is one value
  obtain ⟨c, hc⟩ := List.length_eq_one_iff.mp (Variable.isAtomic_iff.mp atomic)
  obtain ⟨c', hc', same⟩ := includes a ha
  obtain rfl : c' = c := by simpa [hc] using hc'
  have members := defines.eq_of_join rfl
  simp only [hc, List.flatMap_singleton] at members
  exact defines.members_of_same members same

end Stubs

/-! ## Faults of assembly -/

section Assembly

variable {watched : Option Fault.Kind}

/-- Bodies end in no fault of assembly. -/
theorem Evaluator.atDepth_avoids (unwatched : watched ≠ some .stack)
    (uncounted : watched ≠ some .word) (depth : Nat) : (atDepth depth).Avoids watched := by
  apply (Analysis.avoids_closed watched).atDepth
  intro depth hev id function locals
  exact runIn_avoids_of_frame fun _ => Frame.runToEnd_avoids_of_ne unwatched uncounted hev _

end Assembly

namespace Machine

theorem inferStubWith_apply (ev : Evaluator) (m : Machine) : inferStubWith ev m =
    match m.code with
    | none => (.error (.inconsistent .noModule), m)
    | some (code, site) =>
      match (do (← Frame.forModule code site).runToEnd ev : Analysis Frame) m.context with
      | (.error fault, context) => (.error fault, { m with context })
      | (.ok frame, context) =>
        match definitionsOf ev frame.finalLocals context with
        | (.error fault, context) => (.error fault, { m with context })
        | (.ok definitions, context) =>
          ((Stub.assemble context.options.moduleName definitions).mapError .assembly,
            { m with context }) := by
  obtain ⟨context, phase, entry, moduleFrame, visited⟩ := m
  have read (m : Machine) : (get : MachineStep Machine) m = (.ok m, m) := rfl
  unfold inferStubWith
  rw [bind_of_ok (read _)]
  cases entry with
  | none => rfl
  | some entry =>
    obtain ⟨code, site⟩ := entry
    dsimp only
    rw [bind_apply]
    dsimp only [analysis]
    generalize (Frame.forModule code site >>= fun frame => frame.runToEnd ev) context = run
    obtain ⟨_ | frame, context⟩ := run
    · rfl
    dsimp only
    rw [bind_apply]
    dsimp only [analysis]
    generalize definitionsOf ev frame.finalLocals context = declared
    obtain ⟨_ | definitions, context⟩ := declared
    · rfl
    dsimp only
    rw [bind_of_ok (read _)]
    dsimp only
    cases Stub.assemble context.options.moduleName definitions <;> rfl

/-- A stub is the gathered declarations of what the module ends with, unless there is a fault, of
another kind than those of assembly. -/
theorem inferStubWith_cases (depth : Nat) (m : Machine) :
    (∃ fault m', inferStubWith (.atDepth depth) m = (.error fault, m') ∧ fault.Outside (some .assembly)) ∨
    ∃ code site start ctx visits done ctx' definitions m', m.code = some (code, site) ∧
      Frame.forModule code site m.context = (.ok start, ctx) ∧
      start.VisitedAs (.atDepth depth) ctx visits done ctx' ∧
      List.Forall₂ (Shows m'.context.heap) (changedEntries done.finalLocals) definitions ∧
      inferStubWith (.atDepth depth) m = (.ok (Stub.gather m'.context.options.moduleName definitions), m') := by
  -- neither the run nor a declaration ends in a fault of assembly, which has distinct names then
  have unwatched : some Fault.Kind.assembly ≠ some .stack := by decide
  have uncounted : some Fault.Kind.assembly ≠ some .word := by decide
  have hev : (Evaluator.atDepth depth).Avoids _ := Evaluator.atDepth_avoids unwatched uncounted depth
  obtain ⟨context, phase, entry, moduleFrame, seen⟩ := m
  rw [inferStubWith_apply]
  cases entry with
  | none => exact .inl ⟨_, _, rfl, .of_kind? rfl⟩
  | some entry =>
    obtain ⟨code, site⟩ := entry
    dsimp only
    have ran : Avoids (some .assembly) (do (← Frame.forModule code site).runToEnd (.atDepth depth)) :=
      Frame.forModule_avoids_of_frame fun _ _ =>
        Frame.runToEnd_avoids_of_ne unwatched uncounted hev _
    rcases hrun : (do (← Frame.forModule code site).runToEnd (.atDepth depth) : Analysis Frame) context
      with ⟨fault | done, ctx'⟩
    · exact .inl ⟨fault, _, rfl, ran _ fault (by rw [hrun])⟩
    dsimp only
    rcases hdeclared : definitionsOf (.atDepth depth) done.finalLocals ctx'
      with ⟨fault | definitions, after⟩
    · exact .inl ⟨fault, _, rfl, definitionsOf_avoids hev _ _ fault (by rw [hdeclared])⟩
    dsimp only
    obtain ⟨start, ctx, made, ends⟩ := Step.bind_eq_ok.mp hrun
    obtain ⟨opening, -⟩ := Frame.opening_forModule made
    obtain ⟨visits, visited⟩ := Frame.exists_visits ends
    have distinct := visited.distinct opening
    obtain ⟨-, shows⟩ := shows_of_mapM (fun E => Evaluator.atDepth_mirrors E depth) hdeclared
    have names : (definitions.map Stub.Definition.name).Nodup := by
      rw [names_of_shows shows]
      exact distinct.sublist (List.filter_sublist.map _)
    rw [Stub.assemble_of_nodup _ names]
    exact .inr ⟨code, site, start, ctx, visits, done, ctx', definitions,
      ⟨after, phase, some (code, site), moduleFrame, seen⟩, rfl, made, visited, shows, rfl⟩

/-- Stubs are assembled from the names that their modules end with, and export each name once. What
a name is declared as a function or a class by is bound to the name on every path just where no path
leaves the name unbound. -/
theorem inferStub_exports (depth : Nat) (m : Machine) :
    (∀ cause, (inferStubWith (.atDepth depth) m).1 ≠ .error (.assembly cause)) ∧
    ∀ unit m', inferStubWith (.atDepth depth) m = (.ok unit, m') →
      ∃ code site start ctx visits done ctx', m.code = some (code, site) ∧
        Frame.forModule code site m.context = (.ok start, ctx) ∧
        start.VisitedAs (.atDepth depth) ctx visits done ctx' ∧ unit.Exports done.finalLocals ∧
        ∀ name ∈ unit.defined, ∃ v, done.finalLocals.get? name = some v ∧ v.isAtomic = true ∧
          v.joined.Defines m'.context.heap name ∧
          (AlwaysBound start visits name v.joined ↔ ¬ Unbound start visits name) := by
  rcases inferStubWith_cases depth m with ⟨fault, m', ends, outside⟩ |
    ⟨code, site, start, ctx, visits, done, ctx', definitions, m', known, made, visited, shows, ends⟩
  · rw [ends]
    constructor
    · rintro cause ⟨⟩
      exact outside .assembly rfl rfl
    · rintro _ _ ⟨⟩
  · obtain ⟨opening, -⟩ := Frame.opening_forModule made
    have distinct := visited.distinct opening
    rw [ends]
    refine ⟨nofun, ?_⟩
    rintro _ _ ⟨⟩
    refine ⟨code, site, start, ctx, visits, done, ctx', known, made, visited,
      exports_gather distinct shows _, fun name hname => ?_⟩
    obtain ⟨v, bound, atomic, defines⟩ := single_of_mem_defined distinct shows hname
    exact ⟨v, bound, atomic, defines, fun always => always.bound, fun never =>
      ⟨never, opening.only_of_defines visited bound atomic defines⟩⟩

/-- The code of a module that defines a function on one path only. -/
def conditionalModule : Code :=
  let called := ((CodeBuilder.new "f").loadConst (.int 1)).op .returnValue
  let start := ((CodeBuilder.module.op (.loadName "__name__")).op (.popJumpIfFalse 2)).newBlock
  (start.defFunction called.build "f").newBlock.returnNone.build

/-- What is said of stubs holds of that of this module. -/
theorem conditionalModule_exports : ∃ id m unit m',
    runModule conditionalModule (.new .standard) = (.ok id, m) ∧ inferStub m = (.ok unit, m') ∧
      ∃ code site start ctx visits done ctx', m.code = some (code, site) ∧
        Frame.forModule code site m.context = (.ok start, ctx) ∧
        start.VisitedAs interpreter ctx visits done ctx' ∧ unit.Exports done.finalLocals ∧
        ∀ name ∈ unit.defined, ∃ v, done.finalLocals.get? name = some v ∧ v.isAtomic = true ∧
          v.joined.Defines m'.context.heap name ∧
          (AlwaysBound start visits name v.joined ↔ ¬ Unbound start visits name) := by
  obtain ⟨id, m, run⟩ := Step.exists_of_isOk
    (r := runModule conditionalModule (.new .standard)) (by decide +kernel)
  have hm : m = (runModule conditionalModule (.new .standard)).2 := by rw [run]
  have ends : (inferStub m).1.isOk = true := by
    rw [hm]
    decide +kernel
  obtain ⟨unit, m', stub⟩ := Step.exists_of_isOk ends
  exact ⟨id, m, unit, m', run, stub, (inferStub_exports depthLimit m).2 unit m' stub⟩

/-- The path past the branch of the module binds nothing. -/
theorem conditionalModule_unbound {start : Frame} (code : start.code = conditionalModule)
    (missing : start.initialLocals.get? "f" = none) (visits : List Visit) :
    Unbound start visits "f" := by
  have leaves (op : Opcode) (stored : op.storedName? = none) (deleted : op.deletedName? = none) :
      op.Leaves "f" := by simp [Opcode.Leaves, stored, deleted]
  have entry : start.code.blocks[0]? = some [⟨.loadName "__name__", 1⟩, ⟨.popJumpIfFalse 2, 1⟩] := by
    rw [code]
    rfl
  have last : start.code.blocks[2]? = some [⟨.loadConst 1, 1⟩, ⟨.returnValue, 1⟩] := by
    rw [code]
    rfl
  refine .initial missing entry (.along (.next rfl (leaves _ rfl rfl)) ?_)
  refine .along (.leap rfl Nat.zero_lt_two last) (.along (.next rfl (leaves _ rfl rfl)) ?_)
  exact ⟨_, .refl, _, _, rfl, rfl⟩

/-- The stub of the module declares the function, though a path leaves its name unbound. -/
theorem conditionalModule_defines_unbound : ∃ id m unit m' code site start ctx visits done ctx',
    runModule conditionalModule (.new .standard) = (.ok id, m) ∧
      inferStub m = (.ok unit, m') ∧ m.code = some (code, site) ∧
      Frame.forModule code site m.context = (.ok start, ctx) ∧
      start.VisitedAs interpreter ctx visits done ctx' ∧ "f" ∈ unit.defined ∧
      Unbound start visits "f" := by
  obtain ⟨id, m, run⟩ := Step.exists_of_isOk
    (r := runModule conditionalModule (.new .standard)) (by decide +kernel)
  have hm : m = (runModule conditionalModule (.new .standard)).2 := by rw [run]
  have defined : (inferStub m).1.toOption.any (fun unit => decide ("f" ∈ unit.defined)) = true := by
    rw [hm]
    decide +kernel
  rcases inferStubWith_cases depthLimit m with ⟨fault, m', ends, -⟩ |
    ⟨code, site, start, ctx, visits, done, ctx', definitions, m', known, made, visited, -, ends⟩ <;>
    change inferStub m = _ at ends <;> rw [ends] at defined
  · cases defined
  · obtain ⟨-, _, -, rfl⟩ := runModuleWith_eq_ok.mp run
    have same : code = conditionalModule := (congrArg Prod.fst (Option.some.inj known)).symm
    obtain ⟨-, hcode⟩ := Frame.opening_forModule made
    have missing : start.initialLocals.get? "f" = none := by
      cases made
      change NameMap.get? (Builtins.moduleGlobals.mapValues Value.var) "f" = none
      decide
    exact ⟨id, _, _, m', code, site, start, ctx, visits, done, ctx', run, ends, known, made, visited,
      of_decide_eq_true defined, conditionalModule_unbound (hcode.trans same) missing visits⟩

end Machine

end StubInference
