import StubInference.Machine
import StubInference.Proofs.Stub.Joins
import StubInference.Proofs.Value.Joins

/-!
# Types of joined values

Values and types are joined by rules of their own. A join of values has `any` as a member like others, and
drops what equals an earlier member; a join of types is absorbed by the type of everything, and drops what
is the same as an earlier member. Both ways to the type of several values lead to the same: to join the
values first, or to join their types. So it does not matter where the analysis declares what a variable
holds by the type of its values and where by the type of their join.

Nothing is asked of what containers hold, and of a union only that it has two or more distinct members and
no union among them.

## Main definitions

* `Variable.Reduced` — a variable that holds some value, all of them reduced

## Main results

* `Value.type_eq_of_same`, `Variable.type_eq_of_same` — equal values have the same type
* `Value.type_join`, `Variable.type_joined`, `Variable.type_merge` — types of joins
* `type_join_laws` — the same for whatever is declared of variables
-/

namespace StubInference

open Stub (TypeExpr)
open Stub.TypeExpr (unionAll unionAll_singleton unionAll_unionAll unionAll_map_gatherBy flat_unionAll)

variable {heap : Heap}

/-! ## Types of equal values -/

section Congruence

variable {α β : Type} {R : α → α → Prop} {f : α → β} {as bs : List α}

theorem map_eq_of_forall₂ (h : ∀ a ∈ as, ∀ b, R a b → f a = f b) (related : List.Forall₂ R as bs) :
    as.map f = bs.map f := by
  induction related with
  | nil => rfl
  | cons hab _ ih =>
    obtain ⟨first, rest⟩ := List.forall_mem_cons.mp h
    rw [List.map_cons, List.map_cons, first _ hab, ih rest]

end Congruence

theorem Variable.forall₂_of_samePairs {es fs : List (Variable × Variable)}
    (h : Variable.samePairs es fs = true) :
    List.Forall₂ (fun e f => e.1.same f.1 = true ∧ e.2.same f.2 = true) es fs := by
  induction es generalizing fs with
  | nil =>
    cases fs with
    | nil => exact .nil
    | cons => cases h
  | cons e es ih =>
    cases fs with
    | nil => cases h
    | cons f fs =>
      simp only [Variable.samePairs, Bool.and_eq_true] at h
      exact .cons h.1 (ih h.2)

namespace Value

/-! The type of a container depends on the types of what it holds. -/

theorem type_tuple_congr {es fs : List Variable}
    (h : es.map (Variable.type heap) = fs.map (Variable.type heap)) :
    (tuple (some es)).type heap = (tuple (some fs)).type heap := by
  cases es with
  | nil =>
    obtain rfl := List.map_eq_nil_iff.mp h.symm
    rfl
  | cons e es =>
    cases fs with
    | nil => cases h
    | cons f fs =>
      rw [type, type, Variable.types_eq_map, Variable.types_eq_map]
      exact congrArg (genericBuiltin "tuple") h

theorem type_list_congr {es fs : List Variable}
    (h : es.map (Variable.type heap) = fs.map (Variable.type heap)) :
    (list (some es)).type heap = (list (some fs)).type heap := by
  cases es with
  | nil =>
    obtain rfl := List.map_eq_nil_iff.mp h.symm
    rfl
  | cons e es =>
    cases fs with
    | nil => cases h
    | cons f fs =>
      rw [type, type, Variable.types_eq_map, Variable.types_eq_map]
      exact congrArg (fun types => genericBuiltin "list" [unionAll types]) h

theorem type_dict_congr {es fs : List (Variable × Variable)}
    (keys : es.map (fun entry => entry.1.type heap) = fs.map fun entry => entry.1.type heap)
    (values : es.map (fun entry => entry.2.type heap) = fs.map fun entry => entry.2.type heap) :
    (dict (some es)).type heap = (dict (some fs)).type heap := by
  cases es with
  | nil =>
    obtain rfl := List.map_eq_nil_iff.mp keys.symm
    rfl
  | cons e es =>
    cases fs with
    | nil => cases keys
    | cons f fs =>
      rw [type, type, Variable.keyTypes_eq_map, Variable.keyTypes_eq_map, Variable.valueTypes_eq_map,
        Variable.valueTypes_eq_map]
      exact congrArg₂ (fun ks vs => genericBuiltin "dict" [unionAll ks, unionAll vs]) keys values

end Value

private theorem type_eq_of_same_all :
    (∀ a b : Value, a.same b = true → a.type heap = b.type heap) ∧
      ∀ v w : Variable, v.same w = true → v.type heap = w.type heap := by
  apply Value.parts_induction
  · intro a inner parts b hab
    -- values of different kinds are never equal, so both are of one kind
    cases a <;> cases b <;> simp only [Value.same, Bool.false_eq_true, beq_iff_eq] at hab
    case any.any | null.null => rfl
    case literal.literal | classObject.classObject | instanceObject.instanceObject | frozen.frozen =>
      rw [hab]
    case function.function | bound.bound => rfl
    case argTuple.argTuple | argDict.argDict => rfl
    case union.union as bs =>
      rw [Value.type, Value.type, Value.types_eq_map, Value.types_eq_map]
      exact congrArg unionAll (map_eq_of_forall₂ inner (Value.sameAll_iff.mp hab))
    case tuple.tuple as bs =>
      cases as <;> cases bs <;> simp only [Variable.sameContents, Bool.false_eq_true] at hab
      · rfl
      · exact Value.type_tuple_congr (map_eq_of_forall₂ parts (Variable.sameAll_iff.mp hab))
    case list.list as bs =>
      cases as <;> cases bs <;> simp only [Variable.sameContents, Bool.false_eq_true] at hab
      · rfl
      · exact Value.type_list_congr (map_eq_of_forall₂ parts (Variable.sameAll_iff.mp hab))
    case dict.dict as bs =>
      cases as <;> cases bs <;> simp only [Variable.sameEntries, Bool.false_eq_true] at hab
      · rfl
      · have pairs := Variable.forall₂_of_samePairs hab
        refine Value.type_dict_congr (map_eq_of_forall₂ (fun e he f hef => ?_) pairs)
          (map_eq_of_forall₂ (fun e he f hef => ?_) pairs)
        · exact parts e.1 (List.mem_flatMap.mpr ⟨e, he, by simp⟩) f.1 hef.1
        · exact parts e.2 (List.mem_flatMap.mpr ⟨e, he, by simp⟩) f.2 hef.2
  · intro v values w hvw
    rw [Variable.type_eq, Variable.type_eq, map_eq_of_forall₂ values (Variable.same_iff.mp hvw)]

theorem Value.type_eq_of_same {a b : Value} (h : a.same b = true) : a.type heap = b.type heap :=
  type_eq_of_same_all.1 a b h

theorem Variable.type_eq_of_same {v w : Variable} (h : v.same w = true) :
    v.type heap = w.type heap :=
  type_eq_of_same_all.2 v w h

/-! ## Types of joined values -/

theorem Literal.type_eq_anything_or (l : Literal) : l.type = .anything ∨ l.type.IsMember := by
  rcases l with _ | _ | _ | _ | _ | _ | _ | (_ | _) | _ <;> first | exact .inl rfl | exact .inr trivial

namespace Value

variable {a : Value} {values : List Value}

/-- A value that is no union has a type that is none either, and that is not the type of nothing. -/
theorem type_eq_anything_or (plain : a.kind ≠ .union) :
    a.type heap = .anything ∨ (a.type heap).IsMember := by
  cases a with
  | union => exact absurd rfl plain
  | any | null => exact .inl rfl
  | literal l => exact l.type_eq_anything_or
  | classObject | function | bound | instanceObject | frozen | argTuple | argDict => exact .inr trivial
  | tuple elements => rcases elements with _ | _ | _ <;> exact .inr trivial
  | list elements => rcases elements with _ | _ | _ <;> exact .inr trivial
  | dict entries => rcases entries with _ | _ | _ <;> exact .inr trivial

theorem flat_type_of_kind (plain : a.kind ≠ .union) : (a.type heap).Flat := by
  obtain every | member := @type_eq_anything_or heap _ plain
  · rw [every]
    exact trivial
  · exact member.flat

namespace Reduced

theorem flat_types (h : a.Reduced) : ∀ ty ∈ a.members.map (type heap), ty.Flat :=
  List.forall_mem_map.mpr fun b hb => flat_type_of_kind (h.plain b hb)

/-- The type of a value joins those of its members. -/
theorem type_eq (h : a.Reduced) : a.type heap = unionAll (a.members.map (type heap)) := by
  by_cases plain : a.kind = .union
  · cases a with
    | union members => rw [type, types_eq_map, Value.members]
    | _ => cases plain
  · rw [members_of_kind plain, List.map_singleton, unionAll_singleton (type_eq_anything_or plain)]

theorem flat_type (h : a.Reduced) : (a.type heap).Flat := by
  rw [h.type_eq]
  exact flat_unionAll h.flat_types

end Reduced

/-- The type of joined values is the join of their types. -/
theorem type_join (some : values ≠ []) (reduced : ∀ a ∈ values, a.Reduced) :
    (join values).type heap = unionAll (values.map (type heap)) := by
  have flat : ∀ types ∈ values.map fun a => a.members.map (type heap), ∀ ty ∈ types, ty.Flat :=
    List.forall_mem_map.mpr fun a ha => (reduced a ha).flat_types
  have each : values.map (type heap) =
      (values.map fun a => a.members.map (type heap)).map unionAll := by
    rw [List.map_map]
    exact List.map_congr_left fun a ha => (reduced a ha).type_eq
  have congr (a b : Value) (h : a.same b = true) : a.type heap = b.type heap := type_eq_of_same h
  calc (join values).type heap
      = unionAll ((join values).members.map (type heap)) := (reduced_join reduced).type_eq
    _ = unionAll ((gatherBy same [] (values.flatMap members)).map (type heap)) := by
      rw [members_join reduced some]
    _ = unionAll ((values.flatMap members).map (type heap)) :=
      unionAll_map_gatherBy congr _
    _ = unionAll (values.map fun a => a.members.map (type heap)).flatten := by
      rw [List.map_flatMap, List.flatMap_def]
    _ = unionAll (values.map (type heap)) := by rw [each, unionAll_unionAll flat]

end Value

namespace Variable

variable {v : Variable} {vars : List Variable}

/-- A variable that holds some value, and of unions only those of two or more distinct members that are no
unions. -/
structure Reduced (v : Variable) : Prop where
  inhabited : v.values ≠ []
  values : ∀ a ∈ v.values, a.Reduced

/-- What a variable holds has the same type as one value and as several. -/
theorem type_joined (h : v.Reduced) : v.joined.type heap = v.type heap := by
  rw [joined, Value.type_join h.inhabited h.values, type_eq]

theorem values_merge_of_reduced (some : vars ≠ []) (reduced : ∀ v ∈ vars, v.Reduced) :
    (merge vars).values = gatherBy Value.same [] (vars.flatMap values) := by
  obtain ⟨first, rest, rfl⟩ := List.exists_cons_of_ne_nil some
  have held : (first :: rest).flatMap values ≠ [] := by
    rw [List.flatMap_cons]
    exact List.append_ne_nil_of_left_ne_nil (reduced first List.mem_cons_self).inhabited _
  rw [values_merge, if_neg held, Value.addNew_eq_gatherBy]

theorem reduced_merge (some : vars ≠ []) (reduced : ∀ v ∈ vars, v.Reduced) : (merge vars).Reduced where
  inhabited := by
    rw [values_merge_of_reduced some reduced]
    obtain ⟨first, rest, rfl⟩ := List.exists_cons_of_ne_nil some
    rw [List.flatMap_cons]
    exact gatherBy_ne_nil
      (List.append_ne_nil_of_left_ne_nil (reduced first List.mem_cons_self).inhabited _)
  values a ha := by
    rw [values_merge_of_reduced some reduced] at ha
    obtain ⟨v, hv, hav⟩ := List.mem_flatMap.mp (mem_of_mem_gatherBy_nil ha)
    exact (reduced v hv).values a hav

/-- The type of joined variables is the join of their types. -/
theorem type_merge (some : vars ≠ []) (reduced : ∀ v ∈ vars, v.Reduced) :
    (merge vars).type heap = unionAll (vars.map (type heap)) := by
  have flat : ∀ types ∈ vars.map fun v => v.values.map (Value.type heap), ∀ ty ∈ types, ty.Flat :=
    List.forall_mem_map.mpr fun v hv =>
      List.forall_mem_map.mpr fun a ha => ((reduced v hv).values a ha).flat_type
  have congr (a b : Value) (h : a.same b = true) : a.type heap = b.type heap := Value.type_eq_of_same h
  calc (merge vars).type heap
      = unionAll ((gatherBy Value.same [] (vars.flatMap values)).map (Value.type heap)) := by
        rw [type_eq, values_merge_of_reduced some reduced]
    _ = unionAll ((vars.flatMap values).map (Value.type heap)) := unionAll_map_gatherBy congr _
    _ = unionAll (vars.map fun v => v.values.map (Value.type heap)).flatten := by
      rw [List.map_flatMap, List.flatMap_def]
    _ = unionAll (vars.map fun v => unionAll (v.values.map (Value.type heap))) := by
      rw [← unionAll_unionAll flat, List.map_map]
      rfl
    _ = unionAll (vars.map (type heap)) := by rw [funext (type_eq heap)]

end Variable

/-! ## Declarations -/

/-- The type of joined values is the join of their types, and a variable has the type of its joined value.
So the constants that declare a name of a module or a class by a joined value, those that declare an
attribute of an instance, the default of a parameter (unless it is `None`, which says nothing) and what the
frames of a function returned all show the same, whichever of both types they are made from. -/
theorem type_join_laws :
    (∀ (heap : Heap) (values : List Value), values ≠ [] → (∀ a ∈ values, a.Reduced) →
      (Value.join values).type heap = unionAll (values.map (Value.type heap))) ∧
    (∀ (heap : Heap) (v : Variable), v.Reduced → v.type heap = v.joined.type heap) ∧
    (∀ (heap : Heap) (name : String) (v : Variable), v.Reduced →
      Machine.constantDefinition heap name v.joined = .constant ⟨name, v.type heap⟩) ∧
    (∀ (ctx : Context) (body : DeclaredBody) (name : String) (v : Variable), v.Reduced →
      body.addConstant name v.joined ctx =
        (.ok { body with constants := body.constants ++ [⟨name, v.type ctx.heap⟩] }, ctx)) ∧
    (∀ (heap : Heap) (info : ClassInfo) (id : InstanceId),
      (∀ entry ∈ (heap.instanceAt id).members, entry.2.Reduced) →
        ∀ declared ∈ attributeConstants heap info (.instanceObject id), ∃ v,
          (declared.name, v) ∈ (heap.instanceAt id).members ∧ declared.type = v.joined.type heap) ∧
    (∀ (heap : Heap) (v : Variable), v.Reduced → v.holds .noneObject = false →
      defaultType heap (some v) = v.joined.type heap) ∧
    ∀ (heap : Heap) (frames : List FrameId),
      let returned := frames.filterMap fun id => (heap.frameAt id).returned?
      returned ≠ [] → (∀ v ∈ returned, v.Reduced) →
        returnType heap frames = (Variable.merge returned).joined.type heap := by
  refine ⟨?_, ?_, ?_, ?_, ?_, ?_, ?_⟩
  · exact fun heap values some reduced => Value.type_join some reduced
  · exact fun heap v reduced => (Variable.type_joined reduced).symm
  · intro heap name v reduced
    rw [Machine.constantDefinition, Variable.type_joined reduced]
  · intro ctx body name v reduced
    rw [← Variable.type_joined reduced]
    rfl
  · intro heap info id reduced declared hdeclared
    obtain ⟨entry, hentry, rfl⟩ := List.mem_map.mp hdeclared
    have member := List.mem_of_mem_filter hentry
    exact ⟨entry.2, member, (Variable.type_joined (reduced entry member)).symm⟩
  · intro heap v reduced known
    rw [defaultType, if_neg (Bool.not_eq_true _ ▸ known), Variable.type_joined reduced]
  · intro heap frames returned some reduced
    have merged := Variable.reduced_merge some reduced
    rw [Variable.type_joined merged, Variable.type_merge some reduced]
    rfl

/-- A union, a list and another number are joined, and a variable that holds the first two is the attribute
of an instance, the default of a parameter and what a frame returned. -/
theorem type_join_laws_of_union :
    let one := Value.literal (.int 1)
    let text := Value.literal (.str "s")
    let both := Value.union [one, text]
    let items := Value.list (some [one.var, text.var])
    let v := Variable.ofValues [both, items]
    let frame := { (default : Frame) with returns := [v, one.var] }
    let heap := { Builtins.heap with instances := #[⟨Builtins.object, [("x", v)]⟩], frames := #[frame] }
    let ctx := { Context.new .standard with heap := heap }
    (Value.join [both, items, .literal (.int 2)]).type heap =
        unionAll [both.type heap, items.type heap, .builtin "int"] ∧
      v.type heap = v.joined.type heap ∧
      Machine.constantDefinition heap "x" v.joined = .constant ⟨"x", v.type heap⟩ ∧
      DeclaredBody.addConstant ⟨[], [], []⟩ "x" v.joined ctx =
        (.ok ⟨[⟨"x", v.type heap⟩], [], []⟩, ctx) ∧
      (∀ declared ∈ attributeConstants heap default (.instanceObject ⟨0⟩), ∃ w,
        (declared.name, w) ∈ (heap.instanceAt ⟨0⟩).members ∧ declared.type = w.joined.type heap) ∧
      defaultType heap (some v) = v.joined.type heap ∧
      returnType heap [⟨0⟩] = (Variable.merge [Variable.merge [v, one.var]]).joined.type heap := by
  intro one text both items v frame heap ctx
  obtain ⟨joins, vars, names, members, attributes, defaults, returns⟩ := type_join_laws
  have two : both.Reduced := ⟨by decide, by decide, by decide⟩
  have list : items.Reduced := Value.reduced_of_kind (by decide)
  have reduced : v.Reduced := by
    have held : v.values = [both, items] := rfl
    refine ⟨by simp [held], ?_⟩
    simp [held, two, list]
  have single : one.var.Reduced := ⟨by simp, by simp [one, Value.Reduced]⟩
  have number : (Value.literal (.int 2)).Reduced := Value.reduced_of_kind (by decide)
  have merged : (Variable.merge [v, one.var]).Reduced :=
    Variable.reduced_merge (List.cons_ne_nil _ _) (by simp [reduced, single])
  refine ⟨joins heap _ (by simp) (by simp [two, list, number]), vars heap v reduced,
    names heap "x" v reduced, members ctx _ "x" v reduced, attributes heap default ⟨0⟩ ?_,
    defaults heap v reduced rfl, returns heap [⟨0⟩] ?_ ?_⟩
  · exact List.forall_mem_singleton.mpr reduced
  · exact List.cons_ne_nil _ _
  · exact List.forall_mem_singleton.mpr merged

end StubInference
