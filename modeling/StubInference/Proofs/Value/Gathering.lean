import StubInference.Proofs.Value.Equality
import StubInference.Proofs.Occurrences

/-!
# Gathering values

Variables are joined by appending the values that are not there yet. All joins come down to
`Value.addNew` on the values of the variables, which gathers by the equality of values.

## Main results

* `Value.addNew_eq_gatherBy` — adding values is gathering them
* `Value.addNew_eq_append`, `Value.exists_mem_addNew`, `Value.pairwise_addNew` — old values stay in
  front, every new one is represented, and no value comes in twice
* `Variable.values_mergeWith`, `Variable.values_ofValues`, `Variable.values_merge` — the values of
  joined variables
* `Variable.includes_mergeWith_left`, `Variable.includes_mergeWith_right` — joined variables hold
  the values of both
* `Variable.Proper.mergeWith`, `Variable.Proper.ofValues` — joined variables are proper
-/

namespace StubInference

namespace Value

theorem any_eq_true_iff {known : List Value} {a : Value} :
    known.any (· == a) = true ↔ ∃ b ∈ known, b.same a = true := by
  simp only [List.any_eq_true]
  rfl

theorem addNew_eq_gatherBy (known values : List Value) :
    addNew known values = gatherBy Value.same known values := by
  induction values generalizing known with
  | nil => rfl
  | cons a values ih => exact ih _

/-- Old values stay in front, and whatever is appended is new. -/
theorem addNew_eq_append (known values : List Value) :
    ∃ extra, addNew known values = known ++ extra ∧ extra ⊆ values := by
  rw [addNew_eq_gatherBy]
  exact gatherBy_eq_append ..

theorem mem_addNew_of_mem {known : List Value} {a : Value} (h : a ∈ known) (values : List Value) :
    a ∈ addNew known values := by
  rw [addNew_eq_gatherBy]
  exact mem_gatherBy_of_mem h values

theorem mem_or_mem_of_mem_addNew {known values : List Value} {a : Value}
    (h : a ∈ addNew known values) : a ∈ known ∨ a ∈ values := by
  rw [addNew_eq_gatherBy] at h
  exact mem_or_mem_of_mem_gatherBy h

/-- Every new value is in the list or represented there by an equal one. -/
theorem exists_mem_addNew_or (known : List Value) {values : List Value} {a : Value}
    (h : a ∈ values) : ∃ b ∈ addNew known values, b = a ∨ b.same a = true := by
  rw [addNew_eq_gatherBy]
  exact exists_mem_gatherBy known h

/-- Every new value is represented by an equal one. -/
theorem exists_mem_addNew (known : List Value) {values : List Value}
    (proper : ∀ a ∈ values, a.Proper) {a : Value} (h : a ∈ values) :
    ∃ b ∈ addNew known values, b.same a = true := by
  obtain ⟨b, hb, rfl | hba⟩ := exists_mem_addNew_or known h
  · exact ⟨b, hb, same_refl (proper b h)⟩
  · exact ⟨b, hb, hba⟩

/-- No value comes in twice. -/
theorem pairwise_addNew {known values : List Value}
    (distinct : known.Pairwise fun a b => a.same b = false) :
    (addNew known values).Pairwise fun a b => a.same b = false := by
  rw [addNew_eq_gatherBy]
  exact pairwise_gatherBy distinct values

theorem addNew_ne_nil {known values : List Value} (h : values ≠ []) : addNew known values ≠ [] := by
  rw [addNew_eq_gatherBy]
  exact gatherBy_ne_nil h

/-- Distinct values that all equal one value are at most one. -/
theorem length_le_one_of_same {values : List Value} {a : Value} (proper : a.Proper)
    (distinct : values.Pairwise fun a b => a.same b = false)
    (h : ∀ b ∈ values, a.same b = true) : values.length ≤ 1 := by
  match values, distinct with
  | [], _ | [_], _ => simp
  | b :: c :: values, distinct =>
    have hbc : b.same c = true :=
      same_trans (same_symm proper (h b (by simp))) (h c (by simp))
    simp [hbc] at distinct

end Value

namespace Variable

/-! ## The values of joined variables -/

theorem values_foldl_addBinding (new known : List (Binding Value)) :
    (new.foldl addBinding known).map Binding.value =
      Value.addNew (known.map Binding.value) (new.map Binding.value) := by
  induction new generalizing known with
  | nil => rfl
  | cons binding new ih =>
    rw [List.foldl_cons, ih, List.map_cons, Value.addNew, addBinding, List.any_map]
    simp only [Function.comp_def]
    split <;> simp

theorem values_mergeWith (v w : Variable) :
    (v.mergeWith w).values = Value.addNew v.values w.values := by
  simp only [mergeWith, values, bindings, values_foldl_addBinding]

theorem values_ofDistinct (known : List (Binding Value)) :
    (ofDistinct known).values =
      if known.map Binding.value = [] then [.any] else known.map Binding.value := by
  cases known <;> simp [ofDistinct, ofValue, ofValueAt, values, bindings]

theorem values_ofValues (as : List Value) :
    (ofValues as).values = if as = [] then [.any] else Value.addNew [] as := by
  have h : as.foldl (fun known a => addBinding known ⟨a, .synthetic⟩) [] =
      (as.map (Binding.mk · .synthetic)).foldl addBinding [] := by rw [List.foldl_map]
  rw [ofValues, h, values_ofDistinct, values_foldl_addBinding]
  simp only [List.map_nil, List.map_map, Function.comp_def, List.map_id']
  by_cases hs : as = []
  · simp [hs, Value.addNew]
  · simp [hs, Value.addNew_ne_nil]

theorem values_merge (vars : List Variable) :
    (merge vars).values =
      if vars.flatMap values = [] then [.any] else Value.addNew [] (vars.flatMap values) := by
  have h : (vars.flatMap bindings).map Binding.value = vars.flatMap values := by
    simp only [List.map_flatMap]
    rfl
  rw [merge, values_ofDistinct, values_foldl_addBinding, h]
  by_cases hs : vars.flatMap values = []
  · simp [hs, Value.addNew]
  · simp [hs, Value.addNew_ne_nil]

@[simp] theorem values_ofValueAt (a : Value) (origin : Origin) :
    (ofValueAt a origin).values = [a] := rfl

@[simp] theorem values_var (a : Value) : a.var.values = [a] := rfl

theorem isAtomic_iff {v : Variable} : v.isAtomic = true ↔ v.values.length = 1 := by
  simp [isAtomic, count, values]

theorem atomic?_eq_some_iff {v : Variable} {a : Value} :
    v.atomic? = some a ↔ v.values = [a] := by
  rcases v with ⟨_ | ⟨b, _ | ⟨c, rest⟩⟩⟩ <;> simp [atomic?, values, bindings]

/-! ## Inclusion -/

/-- A variable holds at least every value of another one, as variables tell values apart. -/
def Includes (w v : Variable) : Prop := ∀ a ∈ v.values, ∃ b ∈ w.values, b = a ∨ b.same a = true

theorem Includes.refl (v : Variable) : v.Includes v := fun a ha => ⟨a, ha, .inl rfl⟩

theorem Includes.trans {u v w : Variable} (huv : u.Includes v) (hvw : v.Includes w) :
    u.Includes w := by
  intro a ha
  obtain ⟨b, hb, hba⟩ := hvw a ha
  obtain ⟨c, hc, hcb⟩ := huv b hb
  refine ⟨c, hc, ?_⟩
  rcases hba with rfl | hba
  · exact hcb
  · rcases hcb with rfl | hcb
    · exact .inr hba
    · exact .inr (Value.same_trans hcb hba)

/-- What equals a value of a variable equals one of a variable that includes it. -/
theorem Includes.any_beq {v w : Variable} {a : Value} (h : w.Includes v)
    (ha : v.values.any (· == a) = true) : w.values.any (· == a) = true := by
  obtain ⟨b, hb, hba⟩ := Value.any_eq_true_iff.mp ha
  obtain ⟨c, hc, hcb⟩ := h b hb
  refine Value.any_eq_true_iff.mpr ⟨c, hc, ?_⟩
  rcases hcb with rfl | hcb
  · exact hba
  · exact Value.same_trans hcb hba

theorem includes_mergeWith_left (v w : Variable) : (v.mergeWith w).Includes v := by
  intro a ha
  rw [values_mergeWith]
  exact ⟨a, Value.mem_addNew_of_mem ha _, .inl rfl⟩

theorem includes_mergeWith_right (v w : Variable) : (v.mergeWith w).Includes w := by
  intro a ha
  rw [values_mergeWith]
  exact Value.exists_mem_addNew_or v.values ha

theorem includes_ofValues (v : Variable) : (ofValues v.values).Includes v := by
  intro a ha
  rw [values_ofValues, if_neg (List.ne_nil_of_mem ha)]
  exact Value.exists_mem_addNew_or [] ha

theorem mem_or_mem_of_mem_mergeWith {v w : Variable} {a : Value} (h : a ∈ (v.mergeWith w).values) :
    a ∈ v.values ∨ a ∈ w.values := by
  rw [values_mergeWith] at h
  exact Value.mem_or_mem_of_mem_addNew h

/-! ## Proper variables -/

namespace Proper

theorem ofValueAt {a : Value} (h : a.Proper) (origin : Origin) :
    (Variable.ofValueAt a origin).Proper :=
  .intro (by simp) (by simp) (by simpa using h)

theorem var {a : Value} (h : a.Proper) : a.var.Proper := ofValueAt h .synthetic

theorem mergeWith {v w : Variable} (hv : v.Proper) (hw : w.Proper) : (v.mergeWith w).Proper := by
  refine .intro ?_ ?_ ?_
  · rw [values_mergeWith]
    exact Value.addNew_ne_nil hw.inhabited
  · rw [values_mergeWith]
    exact Value.pairwise_addNew hv.distinct
  · intro a ha
    rw [values_mergeWith] at ha
    exact (Value.mem_or_mem_of_mem_addNew ha).elim (hv.values a) (hw.values a)

/-- The variable that holds each of some values once is proper. -/
theorem ofValues {as : List Value} (h : ∀ a ∈ as, a.Proper) : (Variable.ofValues as).Proper := by
  by_cases hs : as = []
  · subst hs
    exact var .any
  · refine .intro ?_ ?_ ?_ <;> rw [values_ofValues, if_neg hs]
    · exact Value.addNew_ne_nil hs
    · exact Value.pairwise_addNew .nil
    · intro a ha
      exact h a ((Value.mem_or_mem_of_mem_addNew ha).resolve_left (by simp))

end Proper

end Variable

end StubInference
