import Mathlib.Data.List.Pairwise
import StubInference.Proofs.Stub.Assembly
import StubInference.Proofs.Stub.Joins

/-!
# What assembled definitions make up

Definitions clash where one name has two kinds, or two classes. A module is assembled just where no two
definitions clash, and otherwise the first definition that clashes with an earlier one is reported. The
module has each name once, among those of its kind and in the order of first occurrence, with all that
the definitions of the name say.

## Main definitions

* `Stub.Definition.Clashes`, `Stub.Definition.clash` — definitions that do not fit, and the fault
* `Stub.GroupedFrom` — items of which those of one name are joined
* `Stub.Module.IsUnitOf` — what some definitions have to make up
* `Stub.Assembly.Holds` — what is known in the course of an assembly

## Main results

* `Stub.GroupedFrom.put` — one more item is joined or appended
* `Stub.Assembly.Holds.add`, `Stub.Assembly.Holds.add_of_clashes` — one more definition
* `Stub.Assembly.Holds.foldlM` — all definitions
* `Stub.assemble_laws` — what assembling gives, in all cases
-/

namespace StubInference.Stub

/-! ## Items of one name -/

section Groups

variable {α : Type} {nameOf : α → String} {join : α → α → α} {items seen : List α} {fresh item : α}

/-- The items of one name joined in order, and the names in the order in which they first occur. -/
structure GroupedFrom (nameOf : α → String) (join : α → α → α) (seen items : List α) : Prop where
  names : items.map nameOf = firstOccurrences (· == ·) (seen.map nameOf)
  joined : ∀ item ∈ items, ∃ first rest, seen.filter (nameOf · == nameOf item) = first :: rest ∧
    item = rest.foldl join first

theorem map_mergeOrAppend (keeps : ∀ old later, nameOf (join old later) = nameOf old) (items : List α)
    (fresh : α) :
    (mergeOrAppend (nameOf · == nameOf fresh) (join · fresh) fresh items).map nameOf =
      items.map nameOf ++ if (items.map nameOf).any (· == nameOf fresh) then [] else [nameOf fresh] := by
  induction items with
  | nil => rfl
  | cons item rest ih =>
    rw [mergeOrAppend, List.map_cons, List.any_cons]
    by_cases same : nameOf item = nameOf fresh
    · simp [same, keeps]
    · simp [same, ih]

/-- Where names are distinct, an item is an old one, an old one joined with the new one, or the new one. -/
theorem mem_mergeOrAppend (distinct : (items.map nameOf).Nodup)
    (h : item ∈ mergeOrAppend (nameOf · == nameOf fresh) (join · fresh) fresh items) :
    (item ∈ items ∧ nameOf item ≠ nameOf fresh) ∨
      (∃ old ∈ items, nameOf old = nameOf fresh ∧ item = join old fresh) ∨
      nameOf fresh ∉ items.map nameOf ∧ item = fresh := by
  induction items with
  | nil => exact .inr (.inr ⟨List.not_mem_nil, List.mem_singleton.mp h⟩)
  | cons known rest ih =>
    obtain ⟨new, distinct⟩ := List.nodup_cons.mp distinct
    rw [mergeOrAppend] at h
    by_cases same : nameOf known = nameOf fresh
    · rw [if_pos (beq_iff_eq.mpr same)] at h
      rcases List.mem_cons.mp h with rfl | h
      · exact .inr (.inl ⟨known, List.mem_cons_self, same, rfl⟩)
      · refine .inl ⟨List.mem_cons_of_mem _ h, fun again => new ?_⟩
        rw [same, ← again]
        exact List.mem_map_of_mem h
    · rw [if_neg (mt beq_iff_eq.mp same)] at h
      rcases List.mem_cons.mp h with rfl | h
      · exact .inl ⟨List.mem_cons_self, same⟩
      · rcases ih distinct h with ⟨old, other⟩ | ⟨old, hold, named, joined⟩ | ⟨missing, rfl⟩
        · exact .inl ⟨List.mem_cons_of_mem _ old, other⟩
        · exact .inr (.inl ⟨old, List.mem_cons_of_mem _ hold, named, joined⟩)
        · refine .inr (.inr ⟨?_, rfl⟩)
          rw [List.map_cons, List.mem_cons, not_or]
          exact ⟨fun h => same h.symm, missing⟩

/-- One more item is joined with the ones of its name, or comes last. -/
theorem GroupedFrom.put (grouped : GroupedFrom nameOf join seen items)
    (keeps : ∀ old later, nameOf (join old later) = nameOf old) (fresh : α) :
    GroupedFrom nameOf join (seen ++ [fresh])
      (mergeOrAppend (nameOf · == nameOf fresh) (join · fresh) fresh items) where
  names := by
    have known : (items.map nameOf).any (· == nameOf fresh) =
        (seen.map nameOf).any (· == nameOf fresh) := by
      rw [grouped.names, List.any_beq', List.any_beq', List.contains_eq_mem, List.contains_eq_mem,
        decide_eq_decide]
      exact mem_firstOccurrences_beq
    rw [map_mergeOrAppend keeps, known, grouped.names, List.map_append, List.map_singleton,
      firstOccurrences_concat]
  joined item hitem := by
    have distinct : (items.map nameOf).Nodup := by
      rw [grouped.names]
      exact nodup_firstOccurrences_beq _
    rw [List.filter_append]
    rcases mem_mergeOrAppend distinct hitem with ⟨old, other⟩ | ⟨old, hold, named, rfl⟩ |
      ⟨missing, rfl⟩
    · obtain ⟨first, rest, group, joined⟩ := grouped.joined item old
      have alone : [fresh].filter (nameOf · == nameOf item) = [] := by simp [Ne.symm other]
      exact ⟨first, rest, by rw [group, alone, List.append_nil], joined⟩
    · obtain ⟨first, rest, group, rfl⟩ := grouped.joined old hold
      have more : [fresh].filter (nameOf · == nameOf fresh) = [fresh] := by simp
      refine ⟨first, rest ++ [fresh], ?_, by rw [List.foldl_append]; rfl⟩
      rw [keeps, named, more, ← named, group, List.cons_append]
    · -- nothing of the name was seen before
      have none : seen.filter (nameOf · == nameOf item) = [] := by
        rw [grouped.names, mem_firstOccurrences_beq] at missing
        rw [List.filter_eq_nil_iff]
        exact fun a ha same => missing (List.mem_map.mpr ⟨a, ha, beq_iff_eq.mp same⟩)
      exact ⟨item, [], by simp [none], rfl⟩

end Groups

/-! ## Constants and functions of one name -/

/-- A constant with its type joined with that of a later one. -/
def Constant.join (old later : Constant) : Constant :=
  { old with type := .unionAll [old.type, later.type] }

/-- A function with the signatures of a later one that it does not have yet. -/
def Function.join (old later : Function) : Function :=
  { old with signatures := addSignatures old.signatures later.signatures }

theorem Constant.type_foldl_join (first : Constant) {rest : List Constant} (several : rest ≠ [])
    (flat : ∀ c ∈ first :: rest, c.type.Flat) :
    (rest.foldl join first).type = .unionAll ((first :: rest).map (·.type)) := by
  induction rest using List.reverseRecOn with
  | nil => exact absurd rfl several
  | append_singleton rest last ih =>
    rw [List.foldl_append]
    rcases eq_or_ne rest [] with rfl | some
    · rfl
    · rw [← List.cons_append] at flat ⊢
      obtain ⟨earlier, -⟩ := List.forall_mem_append.mp flat
      change TypeExpr.unionAll [(rest.foldl join first).type, last.type] = _
      rw [ih some earlier, List.map_append]
      exact TypeExpr.unionAll_concat (List.forall_mem_map.mpr earlier) _

theorem addSignatures_eq_gatherBy (known more : List Signature) :
    addSignatures known more = gatherBy (· == ·) known more := by
  induction more generalizing known with
  | nil => rfl
  | cons signature rest ih =>
    rw [addSignatures, ih, gatherBy_cons]
    simp

theorem Function.foldl_join (first : Function) (rest : List Function) :
    rest.foldl join first = { first with
      signatures := gatherBy (· == ·) first.signatures (rest.flatMap (·.signatures)) } := by
  induction rest generalizing first with
  | nil => rfl
  | cons next rest ih =>
    rw [List.foldl_cons, ih, List.flatMap_cons, gatherBy_append,
      ← addSignatures_eq_gatherBy first.signatures]
    rfl

/-! ## Clashes -/

namespace Definition

/-- Two definitions, an earlier and a later one, that cannot stand in one module. -/
def Clashes (first second : Definition) : Prop :=
  first.name = second.name ∧
    (first.kind ≠ second.kind ∨ first.kind = .classDef ∧ second.kind = .classDef)

instance (first second : Definition) : Decidable (first.Clashes second) := instDecidableAnd

theorem kind_of_class? {definition : Definition} {cls : Class} (h : definition.class? = some cls) :
    definition.kind = .classDef := by
  cases definition <;> cases h
  rfl

/-- The fault of a definition that clashes with the first one of its name. -/
def clash (first second : Definition) : AssemblyError :=
  if first.kind = second.kind then .duplicateClass second.name
  else .nameConflict second.name first.kind second.kind

end Definition

/-- Definitions of which no two clash. -/
def Compatible (definitions : List Definition) : Prop :=
  definitions.Pairwise fun first second => ¬ first.Clashes second

instance (definitions : List Definition) : Decidable (Compatible definitions) :=
  inferInstanceAs (Decidable (definitions.Pairwise _))

/-- The first definition of a name. -/
def firstOf? (definitions : List Definition) (name : String) : Option Definition :=
  definitions.find? (·.name == name)

variable {seen : List Definition} {definition first second : Definition}

theorem name_of_firstOf? {name : String} (h : firstOf? seen name = some first) : first.name = name := by
  have named := List.find?_some h
  exact beq_iff_eq.mp named

theorem Compatible.kind_eq (compatible : Compatible seen) (hfirst : first ∈ seen) (hsecond : second ∈ seen)
    (same : first.name = second.name) : first.kind = second.kind := by
  have kinds : seen.Pairwise fun a b => a.name = b.name → a.kind = b.kind := by
    refine compatible.imp fun {a b} apart same => ?_
    by_contra differ
    exact apart ⟨same, .inl differ⟩
  have symmetric : Std.Symm fun a b : Definition => a.name = b.name → a.kind = b.kind :=
    ⟨fun a b h same => (h same.symm).symm⟩
  exact List.Pairwise.forall_of_forall (fun _ _ _ => rfl) kinds hfirst hsecond same

theorem exists_firstOf? (h : definition ∈ seen) : ∃ first, firstOf? seen definition.name = some first :=
  Option.isSome_iff_exists.mp (List.find?_isSome.mpr ⟨definition, h, beq_self_eq_true _⟩)

theorem firstOf?_concat (other : String) : firstOf? (seen ++ [definition]) other =
    (firstOf? seen other).or (if definition.name = other then some definition else none) := by
  unfold firstOf?
  rw [List.find?_append, List.find?_singleton]
  simp only [beq_iff_eq]

/-- Where a definition clashes with any earlier one, it clashes with the first one of its name. -/
theorem Compatible.forall_not_clashes (compatible : Compatible seen)
    (fits : ∀ first ∈ firstOf? seen definition.name, ¬ first.Clashes definition) :
    ∀ earlier ∈ seen, ¬ earlier.Clashes definition := by
  intro earlier hearlier clashes
  obtain ⟨first, found⟩ := exists_firstOf? hearlier
  have named := name_of_firstOf? found
  have same := compatible.kind_eq (List.mem_of_find?_eq_some found) hearlier named
  rw [clashes.1] at found named
  exact fits first found ⟨named, same ▸ clashes.2⟩

theorem compatible_concat : Compatible (seen ++ [definition]) ↔
    Compatible seen ∧ ∀ earlier ∈ seen, ¬ earlier.Clashes definition := by
  unfold Compatible
  simp [List.pairwise_append]

/-! ## What definitions make up -/

/-- The names of one kind that a module declares, in order. -/
def Module.namesOf (unit : Module) : Kind → List String
  | .constant => unit.constants.map (·.name)
  | .function => unit.functions.map (·.name)
  | .classDef => unit.classes.map (·.name)

/-- A constant that has the definitions of its name: the only one unchanged, or the join of all types. -/
structure Constant.IsJoinOf (joined : Constant) (group : List Constant) : Prop where
  only : ∀ constant, group = [constant] → joined = constant
  type : 2 ≤ group.length → (∀ constant ∈ group, constant.type.Flat) →
    joined.type = .unionAll (group.map (·.type))

/-- A function that has the signatures of the first definition, and those of the later ones that it does
not have yet, in order. -/
structure Function.IsJoinOf (joined : Function) (group : List Function) : Prop where
  only : ∀ function, group = [function] → joined = function
  signatures : ∀ first rest, group = first :: rest →
    joined.signatures = gatherBy (· == ·) first.signatures (rest.flatMap (·.signatures))

/-- The module that some definitions make up. -/
structure Module.IsUnitOf (unit : Module) (name : String) (definitions : List Definition) : Prop where
  name : unit.name = name
  /-- No name is declared twice, as whatever kind of definition. -/
  distinct : unit.names.Nodup
  /-- Each kind has the names of the definitions of the kind, in the order in which they first occur. -/
  names : ∀ kind, unit.namesOf kind =
    firstOccurrences (· == ·) ((definitions.filter (·.kind = kind)).map (·.name))
  constants : ∀ constant ∈ unit.constants,
    constant.IsJoinOf ((definitions.filterMap (·.constant?)).filter (·.name == constant.name))
  functions : ∀ function ∈ unit.functions,
    function.IsJoinOf ((definitions.filterMap (·.function?)).filter (·.name == function.name))
  classes : unit.classes = definitions.filterMap (·.class?)

/-! ## The course of an assembly -/

/-- What is known of a module under assembly once some definitions have been added. -/
structure Assembly.Holds (assembly : Assembly) (name : String) (seen : List Definition) : Prop where
  name : assembly.unit.name = name
  kinds : ∀ other, assembly.kinds.get? other = (firstOf? seen other).map (·.kind)
  constants : GroupedFrom (·.name) Constant.join (seen.filterMap (·.constant?)) assembly.unit.constants
  functions : GroupedFrom (·.name) Function.join (seen.filterMap (·.function?)) assembly.unit.functions
  classes : assembly.unit.classes = seen.filterMap (·.class?)
  compatible : Compatible seen

namespace Assembly

variable {assembly last : Assembly} {name : String} {seen definitions : List Definition}
  {definition first : Definition}

theorem holds_start (name : String) : Holds ⟨⟨name, [], [], []⟩, []⟩ name [] where
  name := rfl
  kinds _ := rfl
  constants := ⟨rfl, nofun⟩
  functions := ⟨rfl, nofun⟩
  classes := rfl
  compatible := .nil

/-- The assembly with a definition among those of its kind, joined with those of its name. -/
def take (assembly : Assembly) (definition : Definition) : Assembly where
  unit := match definition with
    | .constant constant =>
      { assembly.unit with constants := addConstant assembly.unit.constants constant }
    | .function function =>
      { assembly.unit with functions := addFunction assembly.unit.functions function }
    | .classDef cls => { assembly.unit with classes := assembly.unit.classes ++ [cls] }
  kinds := assembly.kinds.insert definition.name definition.kind

/-- A definition is refused because of the kind first seen for its name, or as a second class, and
otherwise taken. -/
theorem add_eq (assembly : Assembly) (definition : Definition) : assembly.add definition =
    let first := (assembly.kinds.get? definition.name).getD definition.kind
    if first ≠ definition.kind then .error (.nameConflict definition.name first definition.kind)
    else if definition.kind = .classDef ∧ assembly.unit.classes.any (·.name == definition.name) then
      .error (.duplicateClass definition.name)
    else .ok (assembly.take definition) := by
  unfold add
  dsimp only
  split
  case isTrue => rfl
  case isFalse =>
    cases definition with
    | constant | function =>
      rw [if_neg (by simp [Definition.kind])]
      rfl
    | classDef cls =>
      by_cases found : assembly.unit.classes.any (·.name == cls.name) = true
      · rw [if_pos ⟨rfl, found⟩]
        dsimp only
        rw [if_pos found]
        rfl
      · rw [if_neg fun h => found h.2]
        dsimp only
        rw [if_neg found]
        rfl

theorem Holds.any_classes (holds : assembly.Holds name seen) (other : String) :
    assembly.unit.classes.any (·.name == other) = true ↔
      ∃ first ∈ firstOf? seen other, first.kind = .classDef := by
  rw [holds.classes, List.any_eq_true]
  constructor
  · rintro ⟨cls, hcls, named⟩
    obtain ⟨definition, hdefinition, isClass⟩ := List.mem_filterMap.mp hcls
    obtain ⟨first, found⟩ := exists_firstOf? hdefinition
    have same := holds.compatible.kind_eq (List.mem_of_find?_eq_some found) hdefinition
      (name_of_firstOf? found)
    rw [← Definition.name_of_class? isClass, beq_iff_eq.mp named] at found
    exact ⟨first, found, same.trans (Definition.kind_of_class? isClass)⟩
  · rintro ⟨first, found, isClass⟩
    cases first with
    | constant | function => cases isClass
    | classDef cls =>
      exact ⟨cls, List.mem_filterMap.mpr ⟨_, List.mem_of_find?_eq_some found, rfl⟩,
        beq_iff_eq.mpr (name_of_firstOf? found)⟩

/-- A definition that clashes with the first one of its name is reported. -/
theorem Holds.add_of_clashes (holds : assembly.Holds name seen)
    (found : firstOf? seen definition.name = some first) (clashes : first.Clashes definition) :
    assembly.add definition = .error (first.clash definition) := by
  have known : assembly.kinds.get? definition.name = some first.kind := by rw [holds.kinds, found]; rfl
  rw [add_eq, known, Option.getD_some, Definition.clash]
  dsimp only
  by_cases same : first.kind = definition.kind
  · obtain ⟨isClass, isClass'⟩ := clashes.2.resolve_left (not_not.mpr same)
    have there := (holds.any_classes definition.name).mpr ⟨first, found, isClass⟩
    rw [if_neg (not_not.mpr same), if_pos ⟨isClass', there⟩, if_pos same]
  · rw [if_pos same, if_neg same]

/-- A definition that fits is joined with those of its name. -/
theorem Holds.take (holds : assembly.Holds name seen)
    (fits : ∀ first ∈ firstOf? seen definition.name, ¬ first.Clashes definition) :
    (assembly.take definition).Holds name (seen ++ [definition]) where
  name := by cases definition <;> exact holds.name
  kinds other := by
    rw [firstOf?_concat]
    change (assembly.kinds.insert definition.name definition.kind).get? other = _
    by_cases same : definition.name = other
    · subst same
      rw [NameMap.get?_insert_self, if_pos rfl]
      cases found : firstOf? seen definition.name with
      | none => rfl
      | some first =>
        by_contra differ
        refine fits first found ⟨name_of_firstOf? found, .inl fun same => differ ?_⟩
        exact congrArg some same.symm
    · rw [NameMap.get?_insert_of_ne _ _ same, if_neg same, Option.or_none, holds.kinds]
  constants := by
    rw [List.filterMap_append]
    cases definition with
    | constant fresh => exact holds.constants.put (fun _ _ => rfl) fresh
    | function | classDef =>
      rw [List.filterMap_cons_none rfl, List.filterMap_nil, List.append_nil]
      exact holds.constants
  functions := by
    rw [List.filterMap_append]
    cases definition with
    | function fresh => exact holds.functions.put (fun _ _ => rfl) fresh
    | constant | classDef =>
      rw [List.filterMap_cons_none rfl, List.filterMap_nil, List.append_nil]
      exact holds.functions
  classes := by
    rw [List.filterMap_append, ← holds.classes]
    cases definition with
    | classDef => rfl
    | constant | function => exact (List.append_nil _).symm
  compatible := compatible_concat.mpr ⟨holds.compatible, holds.compatible.forall_not_clashes fits⟩

theorem Holds.add_of_fits (holds : assembly.Holds name seen)
    (fits : ∀ first ∈ firstOf? seen definition.name, ¬ first.Clashes definition) :
    assembly.add definition = .ok (assembly.take definition) := by
  have first : ¬ (assembly.kinds.get? definition.name).getD definition.kind ≠ definition.kind := by
    rw [holds.kinds, not_not]
    cases found : firstOf? seen definition.name with
    | none => rfl
    | some first =>
      by_contra differ
      exact fits first found ⟨name_of_firstOf? found, .inl differ⟩
  have unseen : ¬ (definition.kind = .classDef ∧
      assembly.unit.classes.any (·.name == definition.name) = true) := by
    rintro ⟨isClass, there⟩
    obtain ⟨first, found, isClass'⟩ := (holds.any_classes _).mp there
    exact fits first found ⟨name_of_firstOf? found, .inr ⟨isClass', isClass⟩⟩
  rw [add_eq]
  dsimp only
  rw [if_neg first, if_neg unseen]

/-- All definitions are added, or one of them is reported. -/
theorem Holds.foldlM (holds : assembly.Holds name seen) (definitions : List Definition) :
    (∃ last, definitions.foldlM add assembly = .ok last ∧ last.Holds name (seen ++ definitions)) ∨
      ∃ before definition after first, definitions = before ++ definition :: after ∧
        Compatible (seen ++ before) ∧ firstOf? (seen ++ before) definition.name = some first ∧
        first.Clashes definition ∧
        definitions.foldlM add assembly = .error (first.clash definition) := by
  induction definitions generalizing assembly seen with
  | nil => exact .inl ⟨assembly, rfl, by rwa [List.append_nil]⟩
  | cons definition rest ih =>
    by_cases fits : ∀ first ∈ firstOf? seen definition.name, ¬ first.Clashes definition
    · have step (result : Except AssemblyError Assembly)
          (h : rest.foldlM add (assembly.take definition) = result) :
          (definition :: rest).foldlM add assembly = result := by
        rw [List.foldlM_cons, holds.add_of_fits fits]
        exact h
      have shift (more : List Definition) : seen ++ [definition] ++ more = seen ++ definition :: more :=
        List.append_assoc ..
      rcases ih (holds.take fits) with ⟨last, h, hlast⟩ |
        ⟨before, other, after, first, rfl, compatible, found, clashes, h⟩
      · exact .inl ⟨last, step _ h, shift rest ▸ hlast⟩
      · rw [shift] at compatible found
        exact .inr ⟨definition :: before, other, after, first, rfl, compatible, found, clashes, step _ h⟩
    · push Not at fits
      obtain ⟨first, found, clashes⟩ := fits
      rw [← List.append_nil seen] at found
      refine .inr ⟨[], definition, rest, first, rfl, ?_, found, clashes, ?_⟩
      · rw [List.append_nil]
        exact holds.compatible
      · rw [List.append_nil] at found
        rw [List.foldlM_cons, holds.add_of_clashes found clashes]
        rfl

end Assembly

/-! ## The finished module -/

/-- What is selected by its kind has the names of the definitions of that kind. -/
theorem map_name_filterMap {α : Type} {select : Definition → Option α} {nameOf : α → String} {kind : Kind}
    (named : ∀ definition declared, select definition = some declared →
      nameOf declared = definition.name)
    (selects : ∀ definition, (select definition).isSome = true ↔ definition.kind = kind)
    (definitions : List Definition) :
    (definitions.filterMap select).map nameOf = (definitions.filter (·.kind = kind)).map (·.name) := by
  induction definitions with
  | nil => rfl
  | cons definition rest ih =>
    cases selected : select definition with
    | none =>
      have other : ¬ definition.kind = kind := by simp [← selects, selected]
      rw [List.filterMap_cons_none selected, ih, List.filter_cons_of_neg (by simpa using other)]
    | some declared =>
      have same : definition.kind = kind := by simp [← selects, selected]
      rw [List.filterMap_cons_some selected, List.map_cons, ih, named definition declared selected,
        List.filter_cons_of_pos (by simpa using same), List.map_cons]

section Finished

variable {assembly : Assembly} {unit : Module} {name : String} {definitions before after : List Definition}
  {definition first : Definition}

theorem nodup_classes (compatible : Compatible definitions) :
    ((definitions.filter (·.kind = .classDef)).map (·.name)).Nodup := by
  rw [List.Nodup, List.pairwise_map, List.pairwise_filter]
  refine compatible.imp fun {a b} apart ha hb same => apart ⟨same, .inr ?_⟩
  exact ⟨of_decide_eq_true ha, of_decide_eq_true hb⟩

/-- A constant or a function stands for the definitions of its name. -/
theorem Assembly.Holds.constant (holds : assembly.Holds name definitions) {constant : Constant}
    (h : constant ∈ assembly.unit.constants) :
    constant.IsJoinOf ((definitions.filterMap (·.constant?)).filter (·.name == constant.name)) := by
  obtain ⟨first, rest, group, joined⟩ := holds.constants.joined constant h
  rw [group]
  constructor
  · rintro only ⟨⟩
    exact joined
  · intro several flat
    rw [joined]
    apply Constant.type_foldl_join first _ flat
    rintro rfl
    simp at several

theorem Assembly.Holds.function (holds : assembly.Holds name definitions) {function : Function}
    (h : function ∈ assembly.unit.functions) :
    function.IsJoinOf ((definitions.filterMap (·.function?)).filter (·.name == function.name)) := by
  obtain ⟨first, rest, group, joined⟩ := holds.functions.joined function h
  rw [group]
  constructor
  · rintro only ⟨⟩
    exact joined
  · rintro _ _ ⟨⟩
    rw [joined, Function.foldl_join]

theorem Assembly.Holds.namesOf (holds : assembly.Holds name definitions) (kind : Kind) :
    assembly.unit.namesOf kind =
      firstOccurrences (· == ·) ((definitions.filter (·.kind = kind)).map (·.name)) := by
  cases kind with
  | constant =>
    rw [← map_name_filterMap (fun _ _ => Definition.name_of_constant?) fun d => by
      cases d <;> simp [Definition.constant?, Definition.kind]]
    exact holds.constants.names
  | function =>
    rw [← map_name_filterMap (fun _ _ => Definition.name_of_function?) fun d => by
      cases d <;> simp [Definition.function?, Definition.kind]]
    exact holds.functions.names
  | classDef =>
    rw [firstOccurrences_of_nodup (nodup_classes holds.compatible),
      ← map_name_filterMap (fun _ _ => Definition.name_of_class?) fun d => by
        cases d <;> simp [Definition.class?, Definition.kind]]
    exact congrArg _ holds.classes

theorem Assembly.Holds.nodup_names (holds : assembly.Holds name definitions) :
    assembly.unit.names.Nodup := by
  have distinct (kind : Kind) : (assembly.unit.namesOf kind).Nodup := by
    rw [holds.namesOf]
    exact nodup_firstOccurrences_beq _
  have apart (kind kind' : Kind) (differ : kind ≠ kind') :
      ∀ a ∈ assembly.unit.namesOf kind, ∀ b ∈ assembly.unit.namesOf kind', a ≠ b := by
    rintro a ha _ hb rfl
    rw [holds.namesOf, mem_firstOccurrences_beq, List.mem_map] at ha hb
    obtain ⟨d, hd, named⟩ := ha
    obtain ⟨d', hd', named'⟩ := hb
    rw [List.mem_filter, decide_eq_true_eq] at hd hd'
    have same := holds.compatible.kind_eq hd.1 hd'.1 (named.trans named'.symm)
    exact differ (hd.2.symm.trans (same.trans hd'.2))
  refine List.nodup_append.mpr ⟨List.nodup_append.mpr ⟨distinct .constant, distinct .function, ?_⟩,
    distinct .classDef, ?_⟩
  · exact apart .constant .function (by decide)
  · intro a ha
    rcases List.mem_append.mp ha with ha | ha
    · exact apart .constant .classDef (by decide) a ha
    · exact apart .function .classDef (by decide) a ha

theorem Assembly.Holds.isUnitOf (holds : assembly.Holds name definitions) :
    assembly.unit.IsUnitOf name definitions where
  name := holds.name
  distinct := holds.nodup_names
  names := holds.namesOf
  constants _ := holds.constant
  functions _ := holds.function
  classes := holds.classes

/-- Where a definition clashes with the first one of its name, there are two that clash. -/
theorem not_compatible_of_clashes (found : firstOf? before definition.name = some first)
    (clashes : first.Clashes definition) : ¬ Compatible (before ++ definition :: after) := by
  intro compatible
  have apart := (List.pairwise_append.mp compatible).2.2
  exact apart first (List.mem_of_find?_eq_some found) definition List.mem_cons_self clashes

theorem assemble_of_clashes (name : String) (compatible : Compatible before)
    (found : firstOf? before definition.name = some first) (clashes : first.Clashes definition) :
    assemble name (before ++ definition :: after) = .error (first.clash definition) := by
  rcases (Assembly.holds_start name).foldlM before with ⟨last, h, holds⟩ |
    ⟨earlier, other, later, first', rfl, -, found', clashes', -⟩
  · unfold assemble
    rw [List.foldlM_append, h]
    change (List.foldlM Assembly.add last (definition :: after) >>= _) = _
    rw [List.foldlM_cons, holds.add_of_clashes found clashes]
    rfl
  · exact absurd compatible (not_compatible_of_clashes found' clashes')

end Finished

/-! ## All laws -/

/-- Definitions make up a module just where no two of them clash. Otherwise the first one that clashes with
an earlier one is reported, with the kind of the first definition of its name. The module has each name
once, and what all definitions of the name say. -/
theorem assemble_laws (name : String) (definitions : List Definition) :
    ((∃ unit, assemble name definitions = .ok unit) ↔ Compatible definitions) ∧
    (∀ fault, assemble name definitions = .error fault ↔
      ∃ before definition after first, definitions = before ++ definition :: after ∧
        Compatible before ∧ firstOf? before definition.name = some first ∧ first.Clashes definition ∧
        fault = first.clash definition) ∧
    ∀ unit, assemble name definitions = .ok unit → unit.IsUnitOf name definitions := by
  rcases (Assembly.holds_start name).foldlM definitions with ⟨last, h, holds⟩ |
    ⟨before, definition, after, first, rfl, compatible, found, clashes, -⟩
  · have assembled : assemble name definitions = .ok last.unit := by
      unfold assemble
      rw [h]
      rfl
    rw [assembled]
    refine ⟨iff_of_true ⟨_, rfl⟩ holds.compatible, fun fault => iff_of_false nofun ?_, ?_⟩
    · rintro ⟨before, definition, after, first, rfl, -, found, clashes, -⟩
      exact not_compatible_of_clashes found clashes holds.compatible
    · rintro unit ⟨⟩
      exact holds.isUnitOf
  · rw [List.nil_append] at compatible found
    have refused : assemble name (before ++ definition :: after) = .error (first.clash definition) :=
      assemble_of_clashes name compatible found clashes
    refine ⟨?_, fun fault => ⟨?_, ?_⟩, ?_⟩
    · rw [refused]
      exact iff_of_false nofun (not_compatible_of_clashes found clashes)
    · rw [refused]
      rintro ⟨⟩
      exact ⟨before, definition, after, first, rfl, compatible, found, clashes, rfl⟩
    · rintro ⟨before', definition', after', first', same, compatible', found', clashes', rfl⟩
      rw [same]
      exact assemble_of_clashes name compatible' found' clashes'
    · rw [refused]
      nofun

/-- A constant and a function that are defined twice, and a class. A second class of that name is refused,
and so is a constant that has the name of the function, whichever of them comes first. -/
theorem assemble_laws_of_several :
    let returns (type : TypeExpr) : Signature := ⟨[], none, none, type⟩
    let cls : Definition := .classDef (.empty "C")
    let constant : Definition := .constant ⟨"f", .none⟩
    let declared : List Definition := [.constant ⟨"x", .builtin "int"⟩, .function ⟨"f", [returns .none]⟩,
      .constant ⟨"x", .builtin "str"⟩, cls, .function ⟨"f", [returns (.builtin "int"), returns .none]⟩]
    (∃ unit, assemble "m" declared = .ok unit ∧ unit.IsUnitOf "m" declared) ∧
      assemble "m" (declared ++ [cls, constant]) = .error (.duplicateClass "C") ∧
      assemble "m" (declared ++ [constant, cls]) = .error (.nameConflict "f" .function .constant) := by
  intro returns cls constant declared
  have compatible : Compatible declared := by decide
  refine ⟨?_, ?_, ?_⟩
  · obtain ⟨succeeds, -, makesUp⟩ := assemble_laws "m" declared
    obtain ⟨unit, h⟩ := succeeds.mpr compatible
    exact ⟨unit, h, makesUp unit h⟩
  · exact ((assemble_laws "m" _).2.1 _).mpr
      ⟨declared, cls, [constant], cls, rfl, compatible, rfl, by decide, rfl⟩
  · exact ((assemble_laws "m" _).2.1 _).mpr
      ⟨declared, constant, [cls], _, rfl, compatible, rfl, by decide, rfl⟩

end StubInference.Stub
