import StubInference.Value.Basic

/-!
# Values and what they are made of

A value holds other values and variables, and a variable holds values. What is shown about values
by induction goes through these parts, whatever container they stand in.

## Main definitions

* `Value.inner`, `Value.parts` — the values and the variables directly inside a value
* `Value.Keyed`, `Variable.Keyed` — no table of keyword arguments has a name twice, at any depth
* `Value.Proper`, `Variable.Proper` — neither that, nor is a variable empty or holds a value twice

## Main results

* `Value.parts_induction` — induction over values and variables at once
* `Value.Proper.keyed`, `Variable.Proper.keyed` — what is proper is keyed
-/

namespace StubInference

/-- The values that stand directly inside a value: the members of a union and the receiver of a
bound method. -/
def Value.inner : Value → List Value
  | .union members => members
  | .bound receiver _ => [receiver]
  | _ => []

/-- The variables that a container holds. -/
def Value.parts : Value → List Variable
  | .tuple (some elements) | .list (some elements) | .argTuple (some elements) => elements
  | .dict (some entries) => entries.flatMap fun (key, value) => [key, value]
  | .argDict (some entries) => entries.map (·.2)
  | _ => []

/-! ## Induction -/

section Induction

variable {P : Value → Prop} {Q : Variable → Prop}

mutual
private theorem holds_value (hP : ∀ a : Value, (∀ b ∈ a.inner, P b) → (∀ v ∈ a.parts, Q v) → P a)
    (hQ : ∀ v : Variable, (∀ a ∈ v.values, P a) → Q v) : ∀ a, P a
  | .union members => hP _ (holds_values hP hQ members) (by simp [Value.parts])
  | .bound receiver _ =>
    hP _ (by simpa [Value.inner] using holds_value hP hQ receiver) (by simp [Value.parts])
  | .tuple (some elements) => hP _ (by simp [Value.inner]) (holds_variables hP hQ elements)
  | .list (some elements) => hP _ (by simp [Value.inner]) (holds_variables hP hQ elements)
  | .argTuple (some elements) => hP _ (by simp [Value.inner]) (holds_variables hP hQ elements)
  | .dict (some entries) => hP _ (by simp [Value.inner]) (holds_pairs hP hQ entries)
  | .argDict (some entries) => hP _ (by simp [Value.inner]) (holds_named hP hQ entries)
  | .any | .null | .literal _ | .classObject _ | .function _ | .instanceObject _ | .frozen _
  | .tuple none | .list none | .argTuple none | .dict none | .argDict none =>
    hP _ (by simp [Value.inner]) (by simp [Value.parts])

private theorem holds_values
    (hP : ∀ a : Value, (∀ b ∈ a.inner, P b) → (∀ v ∈ a.parts, Q v) → P a)
    (hQ : ∀ v : Variable, (∀ a ∈ v.values, P a) → Q v) : ∀ as : List Value, ∀ a ∈ as, P a
  | [] => by simp
  | a :: as => by simpa using ⟨holds_value hP hQ a, holds_values hP hQ as⟩

private theorem holds_variable
    (hP : ∀ a : Value, (∀ b ∈ a.inner, P b) → (∀ v ∈ a.parts, Q v) → P a)
    (hQ : ∀ v : Variable, (∀ a ∈ v.values, P a) → Q v) : ∀ v, Q v
  | .ofBindings bindings => hQ _ (by
      simpa [Variable.values, Variable.bindings] using holds_bindings hP hQ bindings)

private theorem holds_bindings
    (hP : ∀ a : Value, (∀ b ∈ a.inner, P b) → (∀ v ∈ a.parts, Q v) → P a)
    (hQ : ∀ v : Variable, (∀ a ∈ v.values, P a) → Q v) :
    ∀ bs : List (Binding Value), ∀ b ∈ bs, P b.value
  | [] => by simp
  | ⟨a, _⟩ :: bs => by simpa using ⟨holds_value hP hQ a, holds_bindings hP hQ bs⟩

private theorem holds_variables
    (hP : ∀ a : Value, (∀ b ∈ a.inner, P b) → (∀ v ∈ a.parts, Q v) → P a)
    (hQ : ∀ v : Variable, (∀ a ∈ v.values, P a) → Q v) : ∀ vs : List Variable, ∀ v ∈ vs, Q v
  | [] => by simp
  | v :: vs => by simpa using ⟨holds_variable hP hQ v, holds_variables hP hQ vs⟩

private theorem holds_pairs
    (hP : ∀ a : Value, (∀ b ∈ a.inner, P b) → (∀ v ∈ a.parts, Q v) → P a)
    (hQ : ∀ v : Variable, (∀ a ∈ v.values, P a) → Q v) :
    ∀ es : List (Variable × Variable), ∀ v ∈ es.flatMap (fun (key, value) => [key, value]), Q v
  | [] => by simp
  | (key, value) :: es => by
    have rest := holds_pairs hP hQ es
    simp only [List.flatMap_cons, List.mem_append, List.mem_cons, List.not_mem_nil, or_false]
    rintro v ((rfl | rfl) | hv)
    · exact holds_variable hP hQ v
    · exact holds_variable hP hQ v
    · exact rest v hv

private theorem holds_named
    (hP : ∀ a : Value, (∀ b ∈ a.inner, P b) → (∀ v ∈ a.parts, Q v) → P a)
    (hQ : ∀ v : Variable, (∀ a ∈ v.values, P a) → Q v) :
    ∀ es : List (String × Variable), ∀ v ∈ es.map (·.2), Q v
  | [] => by simp
  | (_, value) :: es => by
    simpa using ⟨holds_variable hP hQ value, by simpa using holds_named hP hQ es⟩
end

/-- A property of values and one of variables hold throughout when each passes from the parts to
the whole. -/
theorem Value.parts_induction
    (hP : ∀ a : Value, (∀ b ∈ a.inner, P b) → (∀ v ∈ a.parts, Q v) → P a)
    (hQ : ∀ v : Variable, (∀ a ∈ v.values, P a) → Q v) : (∀ a, P a) ∧ ∀ v, Q v :=
  ⟨holds_value hP hQ, holds_variable hP hQ⟩

end Induction

/-! ## Keyed values -/

mutual
/-- A value whose keyword arguments have distinct names, at any depth. -/
inductive Value.Keyed : Value → Prop
  | intro {a : Value} (inner : ∀ b ∈ a.inner, Value.Keyed b)
      (parts : ∀ v ∈ a.parts, Variable.Keyed v)
      (names : ∀ entries, a = .argDict (some entries) → (NameMap.names entries).Nodup) :
      Value.Keyed a

/-- A variable all of whose values are keyed. -/
inductive Variable.Keyed : Variable → Prop
  | intro {v : Variable} (values : ∀ a ∈ v.values, Value.Keyed a) : Variable.Keyed v
end

namespace Value.Keyed

theorem inner {a : Value} : a.Keyed → ∀ b ∈ a.inner, b.Keyed
  | .intro inner _ _ => inner

theorem parts {a : Value} : a.Keyed → ∀ v ∈ a.parts, v.Keyed
  | .intro _ parts _ => parts

theorem names {entries : List (String × Variable)} :
    (argDict (some entries)).Keyed → (NameMap.names entries).Nodup
  | .intro _ _ names => names _ rfl

/-- A value that holds nothing is keyed. -/
theorem of_plain {a : Value} (hinner : a.inner = []) (hparts : a.parts = [])
    (hnames : ∀ entries, a ≠ .argDict (some entries)) : a.Keyed :=
  .intro (by simp [hinner]) (by simp [hparts]) fun entries h => absurd h (hnames entries)

end Value.Keyed

theorem Variable.Keyed.values {v : Variable} : v.Keyed → ∀ a ∈ v.values, a.Keyed
  | .intro values => values

/-! ## Proper values -/

mutual
/-- A value whose variables are proper and whose keyword arguments have distinct names, at any
depth. Every value that the analysis builds is one. -/
inductive Value.Proper : Value → Prop
  | intro {a : Value} (inner : ∀ b ∈ a.inner, Value.Proper b)
      (parts : ∀ v ∈ a.parts, Variable.Proper v)
      (names : ∀ entries, a = .argDict (some entries) → (NameMap.names entries).Nodup) :
      Value.Proper a

/-- A variable that holds some value and none twice, all of them proper. -/
inductive Variable.Proper : Variable → Prop
  | intro {v : Variable} (inhabited : v.values ≠ [])
      (distinct : v.values.Pairwise fun a b => a.same b = false)
      (values : ∀ a ∈ v.values, Value.Proper a) : Variable.Proper v
end

namespace Value.Proper

theorem inner {a : Value} : a.Proper → ∀ b ∈ a.inner, b.Proper
  | .intro inner _ _ => inner

theorem parts {a : Value} : a.Proper → ∀ v ∈ a.parts, v.Proper
  | .intro _ parts _ => parts

theorem names {entries : List (String × Variable)} :
    (argDict (some entries)).Proper → (NameMap.names entries).Nodup
  | .intro _ _ names => names _ rfl

/-- A value that holds nothing is proper. -/
theorem of_plain {a : Value} (hinner : a.inner = []) (hparts : a.parts = [])
    (hnames : ∀ entries, a ≠ .argDict (some entries)) : a.Proper :=
  .intro (by simp [hinner]) (by simp [hparts]) fun entries h => absurd h (hnames entries)

theorem list {elements : List Variable} (h : ∀ v ∈ elements, v.Proper) :
    (Value.list (some elements)).Proper := .intro (by simp [Value.inner]) h (by simp)

theorem tuple {elements : List Variable} (h : ∀ v ∈ elements, v.Proper) :
    (Value.tuple (some elements)).Proper := .intro (by simp [Value.inner]) h (by simp)

theorem dict {entries : List (Variable × Variable)}
    (h : ∀ e ∈ entries, e.1.Proper ∧ e.2.Proper) : (Value.dict (some entries)).Proper := by
  refine .intro (by simp [Value.inner]) (fun v hv => ?_) (by simp)
  obtain ⟨e, he, hve⟩ := List.mem_flatMap.mp hv
  obtain rfl | rfl : v = e.1 ∨ v = e.2 := by simpa using hve
  · exact (h e he).1
  · exact (h e he).2

theorem of_dict {entries : List (Variable × Variable)} (h : (Value.dict (some entries)).Proper) :
    ∀ e ∈ entries, e.1.Proper ∧ e.2.Proper := fun e he =>
  ⟨h.parts _ (List.mem_flatMap.mpr ⟨e, he, by simp⟩),
    h.parts _ (List.mem_flatMap.mpr ⟨e, he, by simp⟩)⟩

theorem literal (l : Literal) : (Value.literal l).Proper := .of_plain rfl rfl (by simp)

theorem frozen (cls : ClassId) : (Value.frozen cls).Proper := .of_plain rfl rfl (by simp)

theorem any : Value.any.Proper := .of_plain rfl rfl (by simp)

theorem null : Value.null.Proper := .of_plain rfl rfl (by simp)

end Value.Proper

namespace Variable.Proper

theorem inhabited {v : Variable} : v.Proper → v.values ≠ []
  | .intro inhabited _ _ => inhabited

theorem distinct {v : Variable} :
    v.Proper → v.values.Pairwise fun a b => a.same b = false
  | .intro _ distinct _ => distinct

theorem values {v : Variable} : v.Proper → ∀ a ∈ v.values, a.Proper
  | .intro _ _ values => values

end Variable.Proper

private theorem keyed_all : (∀ a : Value, a.Proper → a.Keyed) ∧ ∀ v : Variable, v.Proper → v.Keyed := by
  apply Value.parts_induction
  · intro a inner parts proper
    refine .intro (fun b hb => inner b hb (proper.inner b hb))
      (fun v hv => parts v hv (proper.parts v hv)) ?_
    rintro entries rfl
    exact proper.names
  · intro v values proper
    exact .intro fun a ha => values a ha (proper.values a ha)

theorem Value.Proper.keyed {a : Value} (proper : a.Proper) : a.Keyed := keyed_all.1 a proper

theorem Variable.Proper.keyed {v : Variable} (proper : v.Proper) : v.Keyed := keyed_all.2 v proper

end StubInference
