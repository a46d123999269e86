import StubInference.Proofs.Occurrences
import StubInference.Proofs.Value.Filled
import StubInference.Stub.Assembly
import StubInference.TypeOf

/-!
# Well-formed types

A union joins several types, each different from the others and none of them a union itself. The type of
everything would absorb the others and the type of nothing would add nothing, so neither is a member,
and a class with parameters has some. Joins of well-formed types are well-formed as long as there is
something to join, and so are the types of values and variables that hold something everywhere.

The type of nothing is left for what a function returns that never does.

## Main definitions

* `Stub.TypeExpr.WellFormed` — types of this form
* `Stub.Function.WellFormed`, `Stub.Class.WellFormed`, `Stub.Module.WellFormed` — declarations all of
  whose types are well-formed, where a function may return nothing

## Main results

* `Stub.TypeExpr.wellFormed_unionAll` — joins
* `Stub.wellFormed_of_assemble` — modules
* `Value.Filled.wellFormed_type`, `Variable.Filled.wellFormed_type` — types of values
-/

namespace StubInference

namespace Stub

namespace TypeExpr

/-- A type that may be the member of a union. -/
def IsMember : TypeExpr → Prop
  | .anything | .nothing | .union _ => False
  | .named _ | .generic _ _ | .callable _ => True

/-- A type whose unions join several different types that are no unions, whose generic classes all have
parameters, and in which the type of nothing does not occur. -/
inductive WellFormed : TypeExpr → Prop
  | anything : WellFormed .anything
  | named (name : String) : WellFormed (.named name)
  | generic {base : String} {parameters : List TypeExpr} (some : parameters ≠ [])
    (all : ∀ ty ∈ parameters, WellFormed ty) : WellFormed (.generic base parameters)
  | callable {result : TypeExpr} (returns : WellFormed result) : WellFormed (.callable result)
  | union {members : List TypeExpr} (several : 2 ≤ members.length) (distinct : members.Nodup)
    (flat : ∀ ty ∈ members, ty.IsMember) (all : ∀ ty ∈ members, WellFormed ty) :
    WellFormed (.union members)

/-! ## Joins -/

theorem addNew_eq_gatherBy (known types : List TypeExpr) :
    addNew known types = gatherBy (· == ·) known types := by
  induction types generalizing known with
  | nil => rfl
  | cons ty rest ih =>
    rw [addNew, ih, gatherBy_cons]
    simp

/-- Types are appended that are new, each once. -/
theorem addNew_nodup_mem {known : List TypeExpr} (distinct : known.Nodup) (types : List TypeExpr) :
    (addNew known types).Nodup ∧ ∀ ty, ty ∈ addNew known types ↔ ty ∈ known ∨ ty ∈ types := by
  rw [addNew_eq_gatherBy]
  refine ⟨?_, fun ty => mem_gatherBy_beq⟩
  have apart := @pairwise_gatherBy _ (· == ·) known (distinct.imp fun ne => by simpa using ne) types
  exact apart.imp fun ne => by simpa using ne

/-- What a well-formed type brings into a join. -/
theorem WellFormed.members {ty : TypeExpr} (h : ty.WellFormed) : ty.members ≠ [] ∧
    ∀ other ∈ ty.members, other.WellFormed ∧ (other = .anything ∨ other.IsMember) := by
  cases h with
  | anything => exact ⟨List.cons_ne_nil _ _, List.forall_mem_singleton.mpr ⟨.anything, .inl rfl⟩⟩
  | named name =>
    exact ⟨List.cons_ne_nil _ _, List.forall_mem_singleton.mpr ⟨.named name, .inr trivial⟩⟩
  | generic some all =>
    exact ⟨List.cons_ne_nil _ _, List.forall_mem_singleton.mpr ⟨.generic some all, .inr trivial⟩⟩
  | callable result =>
    exact ⟨List.cons_ne_nil _ _, List.forall_mem_singleton.mpr ⟨.callable result, .inr trivial⟩⟩
  | union several _ flat all =>
    exact ⟨List.ne_nil_of_length_pos (Nat.lt_of_lt_of_le Nat.two_pos several), fun other hother =>
      ⟨all other hother, .inr (flat other hother)⟩⟩

/-- Some well-formed types joined are well-formed. -/
theorem wellFormed_unionAll {types : List TypeExpr} (some : types ≠ [])
    (h : ∀ ty ∈ types, ty.WellFormed) : (unionAll types).WellFormed := by
  unfold unionAll
  dsimp only
  split
  case isTrue => exact .anything
  case isFalse bounded =>
    have brought : ∀ ty ∈ types.flatMap TypeExpr.members, ty.WellFormed ∧ ty.IsMember := by
      intro ty hty
      obtain ⟨whole, hwhole, part⟩ := List.mem_flatMap.mp hty
      obtain ⟨wellFormed, every | member⟩ := (h whole hwhole).members.2 ty part
      · exact absurd (every ▸ hty) bounded
      · exact ⟨wellFormed, member⟩
    obtain ⟨distinct, mem⟩ := addNew_nodup_mem List.nodup_nil (types.flatMap TypeExpr.members)
    have all (ty : TypeExpr) (hty : ty ∈ addNew [] (types.flatMap TypeExpr.members)) :
        ty.WellFormed ∧ ty.IsMember :=
      brought ty (((mem ty).mp hty).resolve_left List.not_mem_nil)
    -- the first type brings something that is in the join
    obtain ⟨first, rest, rfl⟩ := List.exists_cons_of_ne_nil some
    obtain ⟨ty, more, hfirst⟩ :=
      List.exists_cons_of_ne_nil (h first (List.mem_cons_self ..)).members.1
    have there : ty ∈ addNew [] ((first :: rest).flatMap TypeExpr.members) :=
      (mem ty).mpr (.inr (by simp [hfirst]))
    generalize addNew [] ((first :: rest).flatMap TypeExpr.members) = joined at distinct all there
    match joined with
    | [] => cases there
    | [single] => exact (all single (List.mem_singleton_self _)).1
    | a :: b :: others =>
      exact .union (by simp) distinct (fun ty hty => (all ty hty).2) fun ty hty => (all ty hty).1

end TypeExpr

open TypeExpr

/-! ## Declarations -/

/-- The types of a function are well-formed, but it may return nothing. -/
structure Signature.WellFormed (signature : Signature) : Prop where
  parameters : ∀ parameter ∈ signature.parameters, parameter.type.WellFormed
  starArgs : ∀ parameter ∈ signature.starArgs, parameter.type.WellFormed
  starStarArgs : ∀ parameter ∈ signature.starStarArgs, parameter.type.WellFormed
  returnType : signature.returnType.WellFormed ∨ signature.returnType = .nothing

/-- A function whose signatures are well-formed. -/
def Function.WellFormed (function : Function) : Prop :=
  ∀ signature ∈ function.signatures, signature.WellFormed

/-- A class all of whose types are well-formed, those of nested classes as well. -/
inductive Class.WellFormed : Class → Prop
  | intro {cls : Class} (bases : ∀ ty ∈ cls.bases, ty.WellFormed)
    (keywords : ∀ keyword ∈ cls.keywords, keyword.2.WellFormed)
    (constants : ∀ declared ∈ cls.constants, declared.type.WellFormed)
    (methods : ∀ method ∈ cls.methods, method.WellFormed)
    (classes : ∀ inner ∈ cls.classes, WellFormed inner) : WellFormed cls

/-- A module all of whose types are well-formed. -/
structure Module.WellFormed (unit : Module) : Prop where
  constants : ∀ declared ∈ unit.constants, declared.type.WellFormed
  functions : ∀ function ∈ unit.functions, function.WellFormed
  classes : ∀ cls ∈ unit.classes, cls.WellFormed

/-- A definition all of whose types are well-formed. -/
def Definition.WellFormed : Definition → Prop
  | .constant declared => declared.type.WellFormed
  | .function declared => declared.WellFormed
  | .classDef declared => declared.WellFormed

/-! ## Assembly -/

/-- What merging keeps, every item has. -/
theorem forall_mergeOrAppend {α : Type} {P : α → Prop} {test : α → Bool} {merge : α → α} {fresh : α}
    {items : List α} (h : ∀ item ∈ items, P item) (hmerge : ∀ item, P item → P (merge item))
    (hfresh : P fresh) : ∀ item ∈ mergeOrAppend test merge fresh items, P item := by
  induction items with
  | nil => exact List.forall_mem_singleton.mpr hfresh
  | cons item rest ih =>
    obtain ⟨here, later⟩ := List.forall_mem_cons.mp h
    rw [mergeOrAppend]
    split
    · exact List.forall_mem_cons.mpr ⟨hmerge item here, later⟩
    · exact List.forall_mem_cons.mpr ⟨here, ih later⟩

theorem forall_addSignatures {P : Signature → Prop} {known more : List Signature}
    (h : ∀ signature ∈ known, P signature) (hmore : ∀ signature ∈ more, P signature) :
    ∀ signature ∈ addSignatures known more, P signature := by
  induction more generalizing known with
  | nil => exact h
  | cons signature rest ih =>
    obtain ⟨here, later⟩ := List.forall_mem_cons.mp hmore
    rw [addSignatures]
    refine ih ?_ later
    split
    · exact h
    · exact List.forall_mem_append.mpr ⟨h, List.forall_mem_singleton.mpr here⟩

/-- A definition that is added leaves a module well-formed. -/
theorem Assembly.add_wellFormed {assembly later : Assembly} {definition : Definition}
    (h : assembly.unit.WellFormed) (hdefinition : definition.WellFormed)
    (added : assembly.add definition = .ok later) : later.unit.WellFormed := by
  unfold Assembly.add at added
  dsimp only at added
  split at added
  case isTrue => cases added
  case isFalse =>
    cases definition with
    | constant declared =>
      cases added
      refine { h with constants := forall_mergeOrAppend h.constants (fun old hold => ?_) hdefinition }
      exact wellFormed_unionAll (List.cons_ne_nil _ _)
        (List.forall_mem_cons.mpr ⟨hold, List.forall_mem_singleton.mpr hdefinition⟩)
    | function declared =>
      cases added
      refine { h with functions := forall_mergeOrAppend h.functions (fun old hold => ?_) hdefinition }
      exact forall_addSignatures hold hdefinition
    | classDef declared =>
      dsimp only at added
      split at added
      · cases added
      · cases added
        exact { h with
          classes := List.forall_mem_append.mpr ⟨h.classes, List.forall_mem_singleton.mpr hdefinition⟩ }

/-- Well-formed definitions make up a well-formed module. -/
theorem wellFormed_of_assemble {name : String} {definitions : List Definition} {unit : Module}
    (h : ∀ definition ∈ definitions, definition.WellFormed)
    (assembled : assemble name definitions = .ok unit) : unit.WellFormed := by
  suffices fold : ∀ assembly : Assembly, assembly.unit.WellFormed → ∀ last,
      definitions.foldlM Assembly.add assembly = .ok last → last.unit.WellFormed by
    unfold assemble at assembled
    cases run : definitions.foldlM Assembly.add ⟨⟨name, [], [], []⟩, []⟩ with
    | error cause =>
      rw [run] at assembled
      cases assembled
    | ok last =>
      rw [run] at assembled
      cases assembled
      exact fold _ ⟨List.forall_mem_nil _, List.forall_mem_nil _, List.forall_mem_nil _⟩ last run
  clear assembled
  induction definitions with
  | nil =>
    rintro assembly hassembly _ ⟨⟩
    exact hassembly
  | cons definition rest ih =>
    intro assembly hassembly last run
    obtain ⟨here, later⟩ := List.forall_mem_cons.mp h
    rw [List.foldlM_cons] at run
    cases added : assembly.add definition with
    | error cause =>
      rw [added] at run
      cases run
    | ok next =>
      rw [added] at run
      exact ih later next (Assembly.add_wellFormed hassembly here added) last run

end Stub

open Stub (TypeExpr)
open Stub.TypeExpr (unionAll wellFormed_unionAll)

/-! ## Types of values -/

/-- A builtin class with parameters. -/
theorem wellFormed_genericBuiltin {name : String} {ty : TypeExpr} {types : List TypeExpr}
    (h : ∀ other ∈ ty :: types, other.WellFormed) : (genericBuiltin name (ty :: types)).WellFormed :=
  .generic (List.cons_ne_nil _ _) h

namespace Literal

mutual
theorem wellFormed_type : ∀ l : Literal, l.type.WellFormed
  | .tuple [] => .named _
  | .tuple (item :: rest) =>
    wellFormed_genericBuiltin (List.forall_mem_cons.mpr ⟨item.wellFormed_type, wellFormed_types rest⟩)
  | .code _ _ => .anything
  | .none | .bool _ | .int _ | .float _ | .str _ | .bytes _ | .ellipsis => .named _

theorem wellFormed_types : ∀ ls : List Literal, ∀ ty ∈ types ls, ty.WellFormed
  | [] => List.forall_mem_nil _
  | item :: rest => List.forall_mem_cons.mpr ⟨item.wellFormed_type, wellFormed_types rest⟩
end

end Literal

section Lists

variable (heap : Heap)

theorem Value.types_eq_map (values : List Value) :
    Value.types heap values = values.map (Value.type heap) := by
  induction values with
  | nil => rfl
  | cons a rest ih => rw [Value.types, ih, List.map_cons]

theorem Variable.types_eq_map (vars : List Variable) :
    Variable.types heap vars = vars.map (Variable.type heap) := by
  induction vars with
  | nil => rfl
  | cons v rest ih => rw [Variable.types, ih, List.map_cons]

theorem Variable.keyTypes_eq_map (entries : List (Variable × Variable)) :
    Variable.keyTypes heap entries = entries.map fun entry => entry.1.type heap := by
  induction entries with
  | nil => rfl
  | cons entry rest ih => rw [Variable.keyTypes, ih, List.map_cons]

theorem Variable.valueTypes_eq_map (entries : List (Variable × Variable)) :
    Variable.valueTypes heap entries = entries.map fun entry => entry.2.type heap := by
  induction entries with
  | nil => rfl
  | cons entry rest ih => rw [Variable.valueTypes, ih, List.map_cons]

/-- The type of a variable joins those of its values. -/
theorem Variable.type_eq (v : Variable) : v.type heap = .unionAll (v.values.map (Value.type heap)) := by
  obtain ⟨bindings⟩ := v
  rw [Variable.type]
  congr 1
  unfold Variable.values Variable.bindings
  induction bindings with
  | nil => rfl
  | cons b rest ih => rw [Variable.bindingTypes, ih, List.map_cons, List.map_cons]

end Lists

variable {heap : Heap}

/-- A join of the types of some objects. -/
theorem wellFormed_unionAll_map {α : Type} (items : List α) (type : α → TypeExpr) (some : items ≠ [])
    (h : ∀ item ∈ items, (type item).WellFormed) : (unionAll (items.map type)).WellFormed :=
  wellFormed_unionAll (by simpa using some) (List.forall_mem_map.mpr h)

/-- A value whose parts have well-formed types has one itself. -/
theorem Value.wellFormed_type_of_parts {a : Value} (inhabited : a ≠ .union [])
    (inner : ∀ b ∈ a.inner, (b.type heap).WellFormed)
    (parts : ∀ v ∈ a.parts, (v.type heap).WellFormed) : (a.type heap).WellFormed := by
  cases a with
  | any | null => exact .anything
  | literal l => exact l.wellFormed_type
  | union members =>
    rw [Value.type, types_eq_map]
    exact wellFormed_unionAll_map members _ (fun none => inhabited (congrArg Value.union none)) inner
  | classObject cls =>
    exact wellFormed_genericBuiltin (List.forall_mem_singleton.mpr (.named _))
  | function | bound => exact .callable .anything
  | instanceObject | frozen | argTuple | argDict => exact .named _
  | tuple elements =>
    rcases elements with _ | _ | ⟨first, rest⟩
    · exact .named _
    · exact .named _
    · rw [Value.type, Variable.types_eq_map]
      exact wellFormed_genericBuiltin (List.forall_mem_map (l := first :: rest).mpr parts)
  | list elements =>
    rcases elements with _ | _ | ⟨first, rest⟩
    · exact .named _
    · exact .named _
    · rw [Value.type, Variable.types_eq_map]
      refine wellFormed_genericBuiltin (List.forall_mem_singleton.mpr ?_)
      exact wellFormed_unionAll_map (first :: rest) _ (List.cons_ne_nil _ _) parts
  | dict entries =>
    rcases entries with _ | _ | ⟨⟨key, value⟩, rest⟩
    · exact .named _
    · exact .named _
    · rw [Value.type, Variable.keyTypes_eq_map, Variable.valueTypes_eq_map]
      have both (entry : Variable × Variable) (hentry : entry ∈ (key, value) :: rest) :
          (entry.1.type heap).WellFormed ∧ (entry.2.type heap).WellFormed :=
        ⟨parts _ (List.mem_flatMap.mpr ⟨entry, hentry, by simp⟩),
          parts _ (List.mem_flatMap.mpr ⟨entry, hentry, by simp⟩)⟩
      refine wellFormed_genericBuiltin (List.forall_mem_cons.mpr
        ⟨?_, List.forall_mem_singleton.mpr ?_⟩)
      · exact wellFormed_unionAll_map ((key, value) :: rest) (fun entry => entry.1.type heap)
          (List.cons_ne_nil _ _) fun entry hentry => (both entry hentry).1
      · exact wellFormed_unionAll_map ((key, value) :: rest) (fun entry => entry.2.type heap)
          (List.cons_ne_nil _ _) fun entry hentry => (both entry hentry).2

theorem wellFormed_type : (∀ a : Value, a.Filled → (a.type heap).WellFormed) ∧
    ∀ v : Variable, v.Filled → (v.type heap).WellFormed :=
  Value.parts_induction
    (fun a inner parts ha => a.wellFormed_type_of_parts ha.inhabited
      (fun b hb => inner b hb (ha.inner b hb)) fun v hv => parts v hv (ha.parts v hv))
    fun v values hv => by
      rw [Variable.type_eq]
      exact wellFormed_unionAll_map _ _ hv.inhabited fun a ha => values a ha (hv.values a ha)

theorem Value.Filled.wellFormed_type {a : Value} (h : a.Filled) : (a.type heap).WellFormed :=
  StubInference.wellFormed_type.1 a h

theorem Variable.Filled.wellFormed_type {v : Variable} (h : v.Filled) : (v.type heap).WellFormed :=
  StubInference.wellFormed_type.2 v h

end StubInference
