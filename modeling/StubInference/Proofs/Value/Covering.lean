import StubInference.Frame.Operator
import StubInference.Proofs.Value.Gathering

/-!
# Covering

A value covers another when it stands for it among others: it is equal to it, or a container of
unknown content of the same kind, or a container of as many parts that cover the parts of the other
one by one. A variable covers another when each value of the other is covered by one of its own.

## Main definitions

* `Value.coveredBy`, `Variable.coveredBy` — covering

## Main results

* `Value.coveredBy_of_same`, `Value.coveredBy_trans_same` — covering respects equality
* `Value.binaryResult_eq_of_coveredBy` — operators do not tell a value from one that covers it
-/

namespace StubInference

mutual
/-- Whether the second value covers the first. -/
def Value.coveredBy : Value → Value → Bool
  | .tuple _, .tuple none | .list _, .list none | .dict _, .dict none => true
  | .tuple (some as), .tuple (some bs) | .list (some as), .list (some bs) =>
    Variable.allCoveredBy as bs
  | .dict (some as), .dict (some bs) => Variable.pairsCoveredBy as bs
  | a, b => a.same b
termination_by structural a => a

/-- Whether each value of the first variable is covered by a value of the second. -/
def Variable.coveredBy : Variable → Variable → Bool
  | .ofBindings as, w => Variable.bindingsCoveredBy as w
termination_by structural v => v

/-- Whether the value of each binding is covered by a value of a variable. -/
def Variable.bindingsCoveredBy : List (Binding Value) → Variable → Bool
  | [], _ => true
  | ⟨a, _⟩ :: as, w => w.values.any (fun b => a.coveredBy b) && Variable.bindingsCoveredBy as w
termination_by structural as => as

/-- Whether variables are covered one by one. -/
def Variable.allCoveredBy : List Variable → List Variable → Bool
  | [], [] => true
  | v :: vs, w :: ws => v.coveredBy w && Variable.allCoveredBy vs ws
  | _, _ => false
termination_by structural vs => vs

/-- Whether the entries of a dictionary are covered one by one. -/
def Variable.pairsCoveredBy : List (Variable × Variable) → List (Variable × Variable) → Bool
  | [], [] => true
  | (k, v) :: es, (l, w) :: fs =>
    k.coveredBy l && v.coveredBy w && Variable.pairsCoveredBy es fs
  | _, _ => false
termination_by structural es => es
end

-- the equations are made here for all that follows, not by whichever proof needs them first
attribute [grind =] Value.coveredBy Variable.coveredBy Variable.bindingsCoveredBy
  Variable.allCoveredBy Variable.pairsCoveredBy

/-! ## Covering part by part -/

namespace Variable

variable {v w : Variable}

theorem bindingsCoveredBy_iff {as : List (Binding Value)} :
    bindingsCoveredBy as w = true ↔ ∀ a ∈ as.map Binding.value, ∃ b ∈ w.values, a.coveredBy b := by
  induction as with
  | nil => simp [bindingsCoveredBy]
  | cons a as ih =>
    obtain ⟨a, _⟩ := a
    simp only [bindingsCoveredBy, Bool.and_eq_true, List.any_eq_true, ih, List.map_cons,
      List.forall_mem_cons]

theorem coveredBy_iff :
    v.coveredBy w = true ↔ ∀ a ∈ v.values, ∃ b ∈ w.values, a.coveredBy b = true := by
  cases v with | ofBindings as =>
  simp only [coveredBy, bindingsCoveredBy_iff, values, bindings]

theorem allCoveredBy_iff {vs ws : List Variable} :
    allCoveredBy vs ws = true ↔ List.Forall₂ (fun v w => v.coveredBy w = true) vs ws := by
  induction vs generalizing ws with
  | nil => cases ws <;> simp [allCoveredBy]
  | cons v vs ih => cases ws <;> simp [allCoveredBy, ih]

theorem pairsCoveredBy_iff {es fs : List (Variable × Variable)} :
    pairsCoveredBy es fs = true ↔ List.Forall₂ (fun v w => v.coveredBy w = true)
      (es.flatMap fun (key, value) => [key, value])
      (fs.flatMap fun (key, value) => [key, value]) := by
  induction es generalizing fs with
  | nil => cases fs <;> simp [pairsCoveredBy]
  | cons e es ih =>
    cases fs with
    | nil => simp [pairsCoveredBy]
    | cons f fs =>
      obtain ⟨k, v⟩ := e
      obtain ⟨l, w⟩ := f
      simp only [pairsCoveredBy, Bool.and_eq_true, ih, List.flatMap_cons, List.cons_append,
        List.nil_append, List.forall₂_cons, and_assoc]

end Variable

/-! ## Covering and equality -/

private theorem coveredBy_of_same_all :
    (∀ a b : Value, a.same b = true → a.coveredBy b = true) ∧
      ∀ v w : Variable, v.same w = true → v.coveredBy w = true := by
  apply Value.parts_induction
  · intro a inner parts b hab
    have vars {ws : List Variable} (h : List.Forall₂ (fun v w => v.same w = true) a.parts ws) :
        List.Forall₂ (fun v w => v.coveredBy w = true) a.parts ws :=
      List.forall₂_iff_zip.mpr ⟨h.length_eq, fun hz =>
        parts _ (List.of_mem_zip hz).1 _ ((List.forall₂_iff_zip.mp h).2 hz)⟩
    cases a <;> cases b <;> try exact hab
    case tuple.tuple e f | list.list e f =>
      cases e <;> cases f <;>
        simp_all only [Value.same, Variable.sameContents, Variable.sameAll_iff, Value.coveredBy,
          Variable.allCoveredBy_iff, Bool.false_eq_true]
      exact vars hab
    case dict.dict e f =>
      cases e <;> cases f <;>
        simp_all only [Value.same, Variable.sameEntries, Variable.samePairs_iff, Value.coveredBy,
          Variable.pairsCoveredBy_iff, Bool.false_eq_true]
      exact vars hab
  · intro v values w hvw
    rw [Variable.coveredBy_iff]
    intro a ha
    obtain ⟨i, hi, rfl⟩ := List.getElem_of_mem ha
    rw [Variable.same_iff, List.forall₂_iff_get] at hvw
    exact ⟨w.values.get ⟨i, hvw.1 ▸ hi⟩, List.get_mem .., values _ ha _ (hvw.2 i hi (hvw.1 ▸ hi))⟩

private theorem coveredBy_trans_same_all :
    (∀ a b c : Value, a.coveredBy b = true → b.same c = true → a.coveredBy c = true) ∧
      ∀ u v w : Variable, u.coveredBy v = true → v.same w = true → u.coveredBy w = true := by
  apply Value.parts_induction
  · intro a inner parts b c hab hbc
    have vars {vs ws : List Variable}
        (hv : List.Forall₂ (fun v w => v.coveredBy w = true) a.parts vs)
        (hw : List.Forall₂ (fun v w => v.same w = true) vs ws) :
        List.Forall₂ (fun v w => v.coveredBy w = true) a.parts ws :=
      forall₂_trans_of_mem parts hv hw
    have plain (hs : a.same b = true) : a.coveredBy c = true :=
      coveredBy_of_same_all.1 a c (Value.same_trans hs hbc)
    cases a <;> cases b <;> try exact plain hab
    all_goals cases c <;> try (simp only [Value.same, Bool.false_eq_true] at hbc)
    case tuple.tuple.tuple e f g | list.list.list e f g =>
      cases e <;> cases f <;> cases g <;>
        simp_all only [Value.same, Variable.sameContents, Variable.sameAll_iff, Value.coveredBy,
          Variable.allCoveredBy_iff, Bool.false_eq_true]
      exact vars hab hbc
    case dict.dict.dict e f g =>
      cases e <;> cases f <;> cases g <;>
        simp_all only [Value.same, Variable.sameEntries, Variable.samePairs_iff, Value.coveredBy,
          Variable.pairsCoveredBy_iff, Bool.false_eq_true]
      exact vars hab hbc
  · intro u values v w huv hvw
    rw [Variable.coveredBy_iff] at *
    intro a ha
    obtain ⟨b, hb, hab⟩ := huv a ha
    obtain ⟨i, hi, rfl⟩ := List.getElem_of_mem hb
    rw [Variable.same_iff, List.forall₂_iff_get] at hvw
    exact ⟨w.values.get ⟨i, hvw.1 ▸ hi⟩, List.get_mem ..,
      values a ha _ _ hab (hvw.2 i hi (hvw.1 ▸ hi))⟩

namespace Variable

variable {u v w : Variable}

theorem coveredBy_of_same (h : v.same w = true) : v.coveredBy w = true :=
  coveredBy_of_same_all.2 v w h

theorem coveredBy_refl (proper : v.Proper) : v.coveredBy v = true :=
  coveredBy_of_same (same_refl proper)

end Variable

namespace Value

variable {a b c : Value}

theorem coveredBy_of_same (h : a.same b = true) : a.coveredBy b = true :=
  coveredBy_of_same_all.1 a b h

theorem coveredBy_trans_same (hab : a.coveredBy b = true) (hbc : b.same c = true) :
    a.coveredBy c = true := coveredBy_trans_same_all.1 a b c hab hbc

theorem coveredBy_refl (proper : a.Proper) : a.coveredBy a = true :=
  coveredBy_of_same (same_refl proper)

/-! ## What covers a container -/

theorem coveredBy_list_some {bs : List Variable} (h : a.coveredBy (.list (some bs)) = true) :
    ∃ as, a = .list (some as) ∧ List.Forall₂ (fun v w => v.coveredBy w = true) as bs := by
  cases a with
  | list elements =>
    cases elements with
    | none => simp [coveredBy, same, Variable.sameContents] at h
    | some as => exact ⟨as, rfl, Variable.allCoveredBy_iff.mp h⟩
  | _ => simp [coveredBy, same] at h

theorem coveredBy_tuple_some {bs : List Variable} (h : a.coveredBy (.tuple (some bs)) = true) :
    ∃ as, a = .tuple (some as) ∧ List.Forall₂ (fun v w => v.coveredBy w = true) as bs := by
  cases a with
  | tuple elements =>
    cases elements with
    | none => simp [coveredBy, same, Variable.sameContents] at h
    | some as => exact ⟨as, rfl, Variable.allCoveredBy_iff.mp h⟩
  | _ => simp [coveredBy, same] at h

theorem coveredBy_dict_some {fs : List (Variable × Variable)}
    (h : a.coveredBy (.dict (some fs)) = true) :
    ∃ es, a = .dict (some es) ∧ Variable.pairsCoveredBy es fs = true := by
  cases a with
  | dict entries =>
    cases entries with
    | none => simp [coveredBy, same, Variable.sameEntries] at h
    | some es => exact ⟨es, rfl, h⟩
  | _ => simp [coveredBy, same] at h

theorem coveredBy_literal {l : Literal} (h : a.coveredBy (.literal l) = true) : a = .literal l := by
  cases a with
  | literal m => simpa [coveredBy, same] using h
  | _ => simp [coveredBy, same] at h

/-- Elements that a covering sequence knows are known of the covered one too. -/
theorem knownElements?_of_coveredBy {bs : List Variable} (h : a.coveredBy b = true)
    (hb : b.knownElements? = some bs) : ∃ as, a.knownElements? = some as ∧
      List.Forall₂ (fun v w => v.coveredBy w = true) as bs := by
  cases b with
  | tuple elements =>
    obtain rfl : elements = some bs := hb
    obtain ⟨as, rfl, has⟩ := coveredBy_tuple_some h
    exact ⟨as, rfl, has⟩
  | list elements =>
    obtain rfl : elements = some bs := hb
    obtain ⟨as, rfl, has⟩ := coveredBy_list_some h
    exact ⟨as, rfl, has⟩
  | literal l =>
    obtain rfl := coveredBy_literal h
    refine ⟨bs, hb, forall₂_refl_of_mem fun v hv => ?_⟩
    cases l with
    | tuple items =>
      obtain rfl := Option.some.inj hb
      obtain ⟨item, -, rfl⟩ := List.mem_map.mp hv
      simp [Variable.coveredBy_iff, coveredBy, same]
    | _ => simp [knownElements?] at hb
  | _ => simp [knownElements?] at hb

/-! ## Operators -/

/-- A value counts as a number the way its cover does. -/
theorem numericClass?_eq_of_coveredBy (h : a.coveredBy b = true) :
    numericClass? a = numericClass? b := by
  cases a <;> cases b <;> simp_all [coveredBy, same, numericClass?]

/-- A value has the class of its cover. -/
theorem classOf?_eq_of_coveredBy (heap : Heap) (h : a.coveredBy b = true) :
    heap.classOf? a = heap.classOf? b := by
  cases a <;> cases b <;> simp_all [coveredBy, same, Heap.classOf?]

/-- Binary operators do not tell values from those that cover them. -/
theorem binaryResult_eq_of_coveredBy {d : Value} (heap : Heap) (hab : a.coveredBy b = true)
    (hcd : c.coveredBy d = true) : binaryResult heap a c = binaryResult heap b d := by
  simp only [binaryResult, numericClass?_eq_of_coveredBy hab, numericClass?_eq_of_coveredBy hcd,
    classOf?_eq_of_coveredBy heap hab, classOf?_eq_of_coveredBy heap hcd]

/-- Nor do negations. -/
theorem negationResult_eq_of_coveredBy (h : a.coveredBy b = true) :
    negationResult a = negationResult b := by
  simp only [negationResult, numericClass?_eq_of_coveredBy h]

end Value

end StubInference
