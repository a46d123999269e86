import Mathlib.Data.List.Basic
import StubInference.Stub.Assembly

/-!
# Assembling names that are distinct

Definitions are only ever joined or refused where a name comes twice. Definitions of distinct names
are put next to each other, each among those of its kind.

## Main definitions

* `Stub.gather` — the module that has each definition among those of its kind
* `Stub.Module.names` — the names that a module declares

## Main results

* `Stub.assemble_of_nodup` — definitions of distinct names are gathered
* `Stub.names_gather` — gathered definitions declare the same names
-/

namespace StubInference.Stub

/-! ## Definitions by kind -/

namespace Definition

/-- The constant that a definition is. -/
def constant? : Definition → Option Constant
  | .constant declared => some declared
  | _ => none

/-- The function that a definition is. -/
def function? : Definition → Option Function
  | .function declared => some declared
  | _ => none

/-- The class that a definition is. -/
def class? : Definition → Option Class
  | .classDef declared => some declared
  | _ => none

variable {definition : Definition}

theorem name_of_constant? {declared : Constant} (h : definition.constant? = some declared) :
    declared.name = definition.name := by
  cases definition <;> cases h
  rfl

theorem name_of_function? {declared : Function} (h : definition.function? = some declared) :
    declared.name = definition.name := by
  cases definition <;> cases h
  rfl

theorem name_of_class? {declared : Class} (h : definition.class? = some declared) :
    declared.name = definition.name := by
  cases definition <;> cases h
  rfl

end Definition

/-- The module that has each definition among those of its kind. -/
def gather (name : String) (definitions : List Definition) : Module where
  name := name
  constants := definitions.filterMap Definition.constant?
  functions := definitions.filterMap Definition.function?
  classes := definitions.filterMap Definition.class?

/-- The names that a module declares. -/
def Module.names (unit : Module) : List String :=
  unit.constants.map (·.name) ++ unit.functions.map (·.name) ++ unit.classes.map (·.name)

theorem names_gather (name : String) (definitions : List Definition) :
    (gather name definitions).names.Perm (definitions.map Definition.name) := by
  induction definitions with
  | nil => exact .nil
  | cons definition rest ih =>
    cases definition with
    | constant declared => exact ih.cons _
    | function declared =>
      -- its name comes after those of the constants
      refine .trans ?_ (ih.cons declared.name)
      exact List.perm_middle.append_right _
    | classDef declared =>
      refine .trans ?_ (ih.cons declared.name)
      exact List.perm_middle

/-- Definitions of one kind keep their order. -/
theorem sublist_gather {α : Type} {select : Definition → Option α} {nameOf : α → String}
    (named : ∀ definition declared, select definition = some declared →
      nameOf declared = definition.name) (definitions : List Definition) :
    ((definitions.filterMap select).map nameOf).Sublist (definitions.map Definition.name) := by
  induction definitions with
  | nil => exact .slnil
  | cons definition rest ih =>
    rw [List.filterMap_cons]
    cases hselect : select definition with
    | none => exact ih.cons _
    | some declared =>
      rw [List.map_cons, List.map_cons, named definition declared hselect]
      exact ih.cons_cons _

/-! ## Assembly -/

/-- Where no item passes the test, a new one is appended. -/
theorem mergeOrAppend_of_forall {α : Type} {test : α → Bool} {merge : α → α} {fresh : α}
    {items : List α} (h : ∀ item ∈ items, test item = false) :
    mergeOrAppend test merge fresh items = items ++ [fresh] := by
  induction items with
  | nil => rfl
  | cons item rest ih =>
    obtain ⟨hitem, hrest⟩ := List.forall_mem_cons.mp h
    rw [mergeOrAppend, hitem, ih hrest]
    rfl

/-- A module under assembly that has no definition of a name. -/
structure Assembly.Misses (assembly : Assembly) (name : String) : Prop where
  kind : assembly.kinds.get? name = none
  constants : ∀ declared ∈ assembly.unit.constants, declared.name ≠ name
  functions : ∀ declared ∈ assembly.unit.functions, declared.name ≠ name
  classes : ∀ declared ∈ assembly.unit.classes, declared.name ≠ name

namespace Assembly

variable {assembly : Assembly} {definition : Definition} {name : String}

/-- The assembly with a definition put among those of its kind. -/
def put (assembly : Assembly) (definition : Definition) : Assembly where
  unit := { assembly.unit with
    constants := assembly.unit.constants ++ definition.constant?.toList
    functions := assembly.unit.functions ++ definition.function?.toList
    classes := assembly.unit.classes ++ definition.class?.toList }
  kinds := assembly.kinds.insert definition.name definition.kind

theorem add_of_misses (misses : assembly.Misses definition.name) :
    assembly.add definition = .ok (assembly.put definition) := by
  have first : ¬ (assembly.kinds.get? definition.name).getD definition.kind ≠ definition.kind := by
    simp [misses.kind]
  unfold add
  rw [if_neg first]
  cases definition with
  | constant declared =>
    have added : addConstant assembly.unit.constants declared =
        assembly.unit.constants ++ [declared] :=
      mergeOrAppend_of_forall fun old hold => beq_false_of_ne (misses.constants old hold)
    simp [put, added, Definition.constant?, Definition.function?, Definition.class?]
    rfl
  | function declared =>
    have added : addFunction assembly.unit.functions declared =
        assembly.unit.functions ++ [declared] :=
      mergeOrAppend_of_forall fun old hold => beq_false_of_ne (misses.functions old hold)
    simp [put, added, Definition.constant?, Definition.function?, Definition.class?]
    rfl
  | classDef declared =>
    have unseen : (assembly.unit.classes.any (·.name == declared.name)) = false := by
      simpa [Definition.name] using misses.classes
    simp [put, unseen, Definition.constant?, Definition.function?, Definition.class?]
    rfl

/-- A definition put among others of its kind adds its own name only. -/
theorem forall_mem_put {α : Type} {select : Definition → Option α} {nameOf : α → String}
    {known : List α} (named : ∀ declared, select definition = some declared →
      nameOf declared = definition.name)
    (misses : ∀ declared ∈ known, nameOf declared ≠ name) (other : definition.name ≠ name) :
    ∀ declared ∈ known ++ (select definition).toList, nameOf declared ≠ name := by
  intro declared hdeclared
  rcases List.mem_append.mp hdeclared with old | new
  · exact misses declared old
  · exact named declared (Option.mem_toList.mp new) ▸ other

theorem Misses.put (misses : assembly.Misses name) (other : definition.name ≠ name) :
    (assembly.put definition).Misses name where
  kind := (NameMap.get?_insert_of_ne _ _ other).trans misses.kind
  constants := forall_mem_put (fun _ => Definition.name_of_constant?) misses.constants other
  functions := forall_mem_put (fun _ => Definition.name_of_function?) misses.functions other
  classes := forall_mem_put (fun _ => Definition.name_of_class?) misses.classes other

end Assembly

/-- Definitions of distinct names are put next to each other. -/
theorem foldlM_add_of_nodup {assembly : Assembly} {definitions : List Definition}
    (distinct : (definitions.map Definition.name).Nodup)
    (misses : ∀ definition ∈ definitions, assembly.Misses definition.name) :
    definitions.foldlM Assembly.add assembly = .ok (definitions.foldl Assembly.put assembly) := by
  induction definitions generalizing assembly with
  | nil => rfl
  | cons definition rest ih =>
    obtain ⟨new, distinct⟩ := List.nodup_cons.mp distinct
    obtain ⟨here, later⟩ := List.forall_mem_cons.mp misses
    rw [List.foldlM_cons, Assembly.add_of_misses here]
    -- the definitions that follow have other names, so they are missing still
    apply ih distinct
    intro other hother
    apply (later other hother).put
    exact fun same => new (same ▸ List.mem_map_of_mem hother)

theorem foldl_put_unit (assembly : Assembly) (definitions : List Definition) :
    (definitions.foldl Assembly.put assembly).unit =
      { assembly.unit with
        constants := assembly.unit.constants ++ definitions.filterMap Definition.constant?
        functions := assembly.unit.functions ++ definitions.filterMap Definition.function?
        classes := assembly.unit.classes ++ definitions.filterMap Definition.class? } := by
  induction definitions generalizing assembly with
  | nil => simp
  | cons definition rest ih =>
    rw [List.foldl_cons, ih]
    cases definition <;>
      simp [Assembly.put, Definition.constant?, Definition.function?, Definition.class?,
        List.filterMap_cons]

/-- Definitions of distinct names are gathered. -/
theorem assemble_of_nodup (name : String) {definitions : List Definition}
    (distinct : (definitions.map Definition.name).Nodup) :
    assemble name definitions = .ok (gather name definitions) := by
  have misses : ∀ definition ∈ definitions,
      Assembly.Misses ⟨⟨name, [], [], []⟩, []⟩ definition.name :=
    fun _ _ => ⟨rfl, nofun, nofun, nofun⟩
  unfold assemble
  rw [foldlM_add_of_nodup distinct misses]
  change Except.ok (definitions.foldl Assembly.put ⟨⟨name, [], [], []⟩, []⟩).unit = _
  rw [foldl_put_unit]
  simp [gather]

end StubInference.Stub
